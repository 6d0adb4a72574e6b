import Tapectl.Volume.Format
import Tapectl.Volume.LayoutModel
import Tapectl.Naming

/-!
# Generators of the on-tape documents

`volume/layout.rs`: the front index (File 3), the full and the short seal marker and the ID thunk
(File 0). Each is prose for a person followed by tables in the plain TOML fragment, one `key = value`
a line and a blank line before every table but the first. The clock is the argument `now`.
-/

namespace Tapectl.Volume.Generate

open StoredText Tapectl.Volume.Format

structure FrontIndexFile where
  position : Int
  typeLabel : String
  sizeBytes : Option Nat
  sha256Encrypted : Option String
  deriving DecidableEq, Repr

def FrontIndexFile.pairs (file : FrontIndexFile) : List (String × Toml.Scalar) :=
  [("position", .integer file.position), ("type", .string file.typeLabel)] ++
    (match file.sizeBytes with
      | some size => [("size_bytes", .integer size)]
      | none => []) ++
    (match file.sha256Encrypted with
      | some hash => [("sha256_encrypted", .string hash)]
      | none => [])

def FrontIndexFile.block (file : FrontIndexFile) : Toml.Block where
  kind := .arrayOfTables
  name := "files"
  pairs := file.pairs

def filesEntries (files : List FrontIndexFile) : Toml.Document := files.map FrontIndexFile.block

def frontIndexTitle : String :=
  "================================================================
                    TAPECTL FRONT INDEX
================================================================

Volume: "

def frontIndexProse : String :=
  "
This file maps every tape position to its type, on-tape byte size, and
the sha256 of its on-tape (encrypted) bytes. It contains NO content
metadata: no filenames, no plaintext checksums, no tenant or unit names.
The trailing seal marker binds this index by hash; see the system guide.

This tape may end early. The list below is the plan: every file the
write meant to put on the tape. The seal marker, the LAST file on the
tape, says where the tape really ended (its ended_after). A file listed
after that position is not on this tape.

================================================================
              MACHINE-READABLE DATA (TOML)
================================================================

"

def frontIndexHeader (label : String) : Text :=
  frontIndexTitle.toList ++ label.toList ++ frontIndexProse.toList

def indexTable (label : String) : Toml.Block where
  kind := .table
  name := "index"
  pairs :=
    [("volume", .string label), ("layout_version", .integer 2), ("may_end_early", .boolean true)]

def generateFrontIndex (label : String) (files : List FrontIndexFile) : Text :=
  frontIndexHeader label ++ Toml.Document.render (indexTable label :: filesEntries files)

def requiresWhole : List String := [shortSeal]

def requiresSpan : List String := [shortSeal, spanning]

def tapeRequires (holdsASpan : Bool) : List String :=
  if holdsASpan then requiresSpan else requiresWhole

def sealTitle : String :=
  "================================================================
                    TAPECTL SEAL MARKER
================================================================

Volume: "

def sealProse : String :=
  "
This file seals the tape: its presence means every file before it is
present. Its absence means the tape is unsealed (interrupted or aborted).
The tape may end before the last file the front index plans:
ended_after below is the last file before this one, and a file the
front index lists after it is not on this tape. It binds the front
index by the sha256 below. The [[files]] entries are a copy of the
front index (File 3) up to this file, usable if File 3 is damaged —
verify any entry by hashing the file it describes.

================================================================
              MACHINE-READABLE DATA (TOML)
================================================================

"

def sealHeader (label : String) : Text :=
  sealTitle.toList ++ label.toList ++ sealProse.toList

def sealTable (label : String) (fileCount endedAfter : Int) (frontIndexSha256 : String)
    (features : List String) (now : String) : Toml.Block where
  kind := .table
  name := "seal"
  pairs :=
    [("volume", .string label), ("layout_version", .integer 2), ("requires", .strings features),
      ("file_count", .integer fileCount), ("ended_after", .integer endedAfter),
      ("sealed_at", .string now)] ++ [("front_index_sha256", .string frontIndexSha256)]

/-- `saturating_add` on an `i32`. -/
def saturatingAdd (value amount : Int) : Int := min (value + amount) (2 ^ 31 - 1)

def generateSealMarkerRequiring (label : String) (fileCount : Int) (frontIndexSha256 : String)
    (files : List FrontIndexFile) (features : List String) (now : String) : Text :=
  sealHeader label ++ Toml.Document.render
    (sealTable label fileCount (fileCount - 2) frontIndexSha256 features now :: filesEntries files)

def generateShortSealMarkerRequiring (label : String) (endedAfter : Int)
    (frontIndexSha256 : String) (filesThroughK : List FrontIndexFile) (features : List String)
    (now : String) : Text :=
  let own : FrontIndexFile :=
    { position := saturatingAdd endedAfter 1
      typeLabel := "seal_marker"
      sizeBytes := none
      sha256Encrypted := none }
  sealHeader label ++ Toml.Document.render
    (sealTable label (saturatingAdd endedAfter 2) endedAfter frontIndexSha256 features now ::
      filesEntries (filesThroughK ++ [own]))

structure IdThunkV2Params where
  label : String
  uuid : String
  mediaType : String
  tapectlVersion : String
  nominalCapacity : Int
  mamCapacity : Int
  totalFiles : Int
  mamManufacturer : String
  mamSerial : String
  mamLength : Int
  mamLoads : Int
  createdAt : String
  cartridgeIdentitySource : Option String
  deriving DecidableEq, Repr

def idThunkTitle : String :=
  "================================================================
                     TAPECTL ARCHIVAL VOLUME
================================================================

Label:   "

def idThunkProse : String :=
  "

This tape contains encrypted archival data managed by tapectl,
an open-source archival storage tool.

>>> COMPLETE INSTRUCTIONS ARE IN THE NEXT FILE ON THIS TAPE. <<<
>>> THE FULL MAP OF THIS TAPE IS FILE 3 (the front index).   <<<

Your drive may not be /dev/nst0. That is an example, not a fact
about this tape. List the tape drives on the machine you are
using and substitute the right one everywhere below:

    ls -l /dev/tape/by-id/

A wrong device reads a DIFFERENT tape, or fails outright.

To read the next file (the full recovery guide):

    mt -f /dev/nst0 setblk 524288
    mt -f /dev/nst0 fsf 1
    dd if=/dev/nst0 bs=512k | tr -d '\\0' > GUIDE.md
    less GUIDE.md

If you just read this file and the tape is already positioned
past it, read the next file directly:

    mt -f /dev/nst0 setblk 524288
    dd if=/dev/nst0 bs=512k | tr -d '\\0' > GUIDE.md

The guide explains everything: what tools you need, how to find
your encryption key, and how to recover your data step by step.
It is written so that an AI assistant can follow it to help you.

================================================================
              MACHINE-READABLE METADATA (TOML)
================================================================

"

variable (params : IdThunkV2Params)

def idThunkHeader : Text :=
  idThunkTitle.toList ++ params.label.toList ++ "\nMedia:   ".toList ++ params.mediaType.toList ++
    "\nCreated: ".toList ++ params.createdAt.toList ++ idThunkProse.toList

def volumeTable (features : List String) : Toml.Block where
  kind := .table
  name := "volume"
  pairs :=
    [("magic", .string "tapectl-volume-v2"), ("label", .string params.label),
      ("uuid", .string params.uuid), ("layout_version", .integer 2),
      ("requires", .strings features), ("tapectl_version", .string params.tapectlVersion),
      ("media_type", .string params.mediaType),
      ("nominal_capacity_bytes", .integer params.nominalCapacity),
      ("mam_capacity_bytes", .integer params.mamCapacity),
      ("created_at", .string params.createdAt)]

def layoutTable : Toml.Block where
  kind := .table
  name := "layout"
  pairs :=
    [("front_index", .integer 3), ("seal_marker", .integer (params.totalFiles - 1)),
      ("total_files", .integer params.totalFiles)]

def mediaTable : Toml.Block where
  kind := .table
  name := "media"
  pairs :=
    [("cartridge_manufacturer", .string params.mamManufacturer),
      ("cartridge_serial", .string params.mamSerial)] ++
    (match params.cartridgeIdentitySource with
      | some source => [("cartridge_identity_source", .string source)]
      | none => []) ++
    [("tape_length_meters", .integer params.mamLength),
      ("load_count_at_write", .integer params.mamLoads)]

def generateIdThunkV2Requiring (features : List String) : Text :=
  idThunkHeader params ++
    Toml.Document.render [volumeTable params features, layoutTable params, mediaTable params]

end Tapectl.Volume.Generate
