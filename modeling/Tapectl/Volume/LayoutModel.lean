import Mathlib

/-!
# The reified Layout

`volume/layout_model.rs`: every file a volume will hold, in position order, with its kind, size and
hash. Where the bytes come from (`source`) and the capacity budget are not read by the functions
modelled here and are left out.
-/

namespace Tapectl.Volume

inductive ZoneKind where
  | idThunk
  | systemGuide
  | restoreSh
  | frontIndex
  | slice (stageSliceId : Int)
  | tenantEnvelope (tenantId : Int)
  | operatorEnvelope
  | operatorEnvelopeBackup
  | tenantEnvelopeBackup (tenantId : Int)
  | sealMarker
  deriving DecidableEq, Repr

def ZoneKind.typeLabel : ZoneKind → String
  | .idThunk => "id_thunk"
  | .systemGuide => "system_guide"
  | .restoreSh => "restore_sh"
  | .frontIndex => "front_index"
  | .slice _ => "data_slice"
  | .tenantEnvelope _ => "tenant_envelope"
  | .operatorEnvelope => "operator_envelope"
  | .operatorEnvelopeBackup => "operator_envelope_backup"
  | .tenantEnvelopeBackup _ => "tenant_envelope_backup"
  | .sealMarker => "seal_marker"

def ZoneKind.isSlice : ZoneKind → Bool
  | .slice _ => true
  | _ => false

variable {kind : ZoneKind}

theorem type_label_seal_marker :
    kind.typeLabel = "seal_marker" ↔ kind = .sealMarker := by
  cases kind <;> simp [ZoneKind.typeLabel]

theorem type_label_front_index :
    kind.typeLabel = "front_index" ↔ kind = .frontIndex := by
  cases kind <;> simp [ZoneKind.typeLabel]

theorem type_label_data_slice :
    kind.typeLabel = "data_slice" ↔ kind.isSlice = true := by
  cases kind <;> simp [ZoneKind.typeLabel, ZoneKind.isSlice]

structure LayoutEntry where
  position : Int
  kind : ZoneKind
  sizeBytes : Option Nat
  sha256 : Option String
  deriving DecidableEq, Repr

structure Layout where
  label : String
  volumeUuid : String
  blockSize : Nat
  entries : List LayoutEntry
  deriving DecidableEq, Repr

/-- Round `size` up to a whole number of blocks. -/
def padToBlocks (size blockSize : Nat) : Nat := (size + blockSize - 1) / blockSize * blockSize % 2 ^ 64

end Tapectl.Volume
