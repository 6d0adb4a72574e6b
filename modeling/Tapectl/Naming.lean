import Tapectl.Library.Toml

/-!
# Names the operator chooses

`naming.rs`: the rule a volume label must pass when it is chosen. How the refusal writes the
offending character (`{bad:?}`) is the parameter `debug`.
-/

namespace Tapectl.Naming

open StoredText

def maxSegment : Nat := 64

def isAllowed (c : Char) : Bool := c.isAlphanum || c == '.' || c == '_' || c == '-'

def reject (kind whole why : String) : String :=
  let separators := if kind = "unit name" then ", with / separating path segments" else ""
  s!"invalid {kind} \"{whole}\": {why}. Allowed: letters, digits, " ++
    s!"dot, underscore and dash{separators}"

def validateSegment (debug : Char → String) (segment kind whole : String) : Except String Unit :=
  if segment.toList = [] then .error (reject kind whole "it has an empty component")
  else if (encodeUtf8 segment.toList).length > maxSegment then
    .error (reject kind whole
      s!"the component \"{segment}\" is longer than {maxSegment} characters")
  else if segment = "." ∨ segment = ".." then
    .error (reject kind whole "\".\" and \"..\" are not usable as name components")
  else match segment.toList.find? fun c => !isAllowed c with
    | some bad =>
      let named := debug bad
      .error (reject kind whole s!"the character {named} is not allowed")
    | none =>
      if segment.toList.head? = some '-' then
        .error (reject kind whole "a component may not start with a dash")
      else if segment.toList.head? = some '.' then
        .error (reject kind whole "a component may not start with a dot")
      else .ok ()

def validateVolumeLabel (debug : Char → String) (label : String) : Except String Unit :=
  validateSegment debug label "volume label" label

def AllowedName (name : String) : Prop := ∀ c ∈ name.toList, isAllowed c = true

instance : DecidablePred AllowedName := fun name =>
  inferInstanceAs (Decidable (∀ c ∈ name.toList, isAllowed c = true))

theorem allowed_of_validate_segment {debug : Char → String} {segment kind whole : String}
    (valid : validateSegment debug segment kind whole = .ok ()) : AllowedName segment := by
  unfold validateSegment at valid
  split at valid
  · cases valid
  split at valid
  · cases valid
  split at valid
  · cases valid
  split at valid
  · cases valid
  · next none =>
      intro c member
      simpa using List.find?_eq_none.mp none c member

theorem allowed_of_validate_volume_label {debug : Char → String} {label : String}
    (valid : validateVolumeLabel debug label = .ok ()) : AllowedName label :=
  allowed_of_validate_segment valid

theorem plain_of_is_allowed {c : Char} (allowed : isAllowed c = true) :
    Toml.isPlainChar c = true ∧ IsAscii c ∧ c ≠ '[' ∧ c ≠ '\x00' := by
  have low : ∀ n : Nat, n < 128 → isAllowed (Char.ofNat n) = true →
      Toml.isPlainChar (Char.ofNat n) = true ∧ IsAscii (Char.ofNat n) ∧ Char.ofNat n ≠ '[' ∧
        Char.ofNat n ≠ '\x00' := by
    decide
  have ascii : c.toNat < 128 := by
    by_cases dot : c = '.'
    · subst dot
      decide
    · have mark : Toml.isMark c = true := Toml.mark_of_bare (by
        simpa [isAllowed, Toml.isBareKeyChar, dot] using allowed)
      exact Nat.lt_succ_of_le (Toml.ascii_of_mark mark)
  have same := low c.toNat ascii
  rw [Char.ofNat_toNat] at same
  exact same allowed

theorem AllowedName.chars {name : String} (allowed : AllowedName name) :
    ∀ c ∈ name.toList, c ≠ '[' ∧ c ≠ '\x00' :=
  fun c member => (plain_of_is_allowed (allowed c member)).2.2

theorem AllowedName.plain_ascii {name : String} (allowed : AllowedName name) :
    Toml.PlainAscii name := fun c member =>
  let ⟨plain, ascii, _⟩ := plain_of_is_allowed (allowed c member)
  ⟨plain, ascii⟩

end Tapectl.Naming
