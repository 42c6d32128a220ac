import EmailPlatform.Core.List
import EmailPlatform.Js.Utf16
import Mathlib.Data.Bool.AllAny
import Mathlib.Tactic.Common

/-!
# EmailPlatform.Storage.PublicUrl

Keys and URLs of the public bucket. A key is `namespace/uuid/filename`; the filename is
sanitised for use in a key, so that the separators of a key are exactly the two between its
parts and the uuid can be read off it.
-/

namespace EmailPlatform.Storage

/-- `PUBLIC_URL.PATH_SEPARATOR`: `/`. -/
def pathSeparator : UInt16 := 0x2F

/-- `FILENAME_SANITIZE.UNSAFE_CHAR_PATTERN`: `[\\/\x00-\x1f\x7f]`. -/
def unsafeChar (c : UInt16) : Bool := c = 0x5C || c = 0x2F || c ≤ 0x1F || c = 0x7F

/-- `FILENAME_SANITIZE.REPLACEMENT`: `_`. -/
def replacement : UInt16 := 0x5F

/-- `FILENAME_SANITIZE.MAX_LENGTH` -/
def maxLength : Nat := 255

/-- `sanitizeFilename` -/
def sanitizeFilename (raw : JsString) : JsString :=
  let stripped := raw.map fun c => if unsafeChar c then replacement else c
  if stripped.length > maxLength then stripped.take maxLength else stripped

/-- `buildPublicUrl`; the bucket has no part in the URL. -/
def buildPublicUrl (base _bucket key : JsString) : JsString :=
  let trimmed := if base.getLast? = some pathSeparator then base.dropLast else base
  trimmed ++ pathSeparator :: key

/-- A value of `randomUUID()`: lower-case hexadecimal digits and hyphens. -/
structure Uuid where
  text : JsString
  hex : ∀ c ∈ text, (0x30 ≤ c ∧ c ≤ 0x39) ∨ (0x61 ≤ c ∧ c ≤ 0x66) ∨ c = 0x2D
  length : text.length = 36
  deriving DecidableEq

/-- The key of an upload. -/
def objectKey (ns : JsString) (uuid : Uuid) (safe : JsString) : JsString :=
  ns ++ pathSeparator :: (uuid.text ++ pathSeparator :: safe)

/-- A sanitised filename has no unsafe character. -/
theorem unsafeChar_of_mem_sanitizeFilename {raw : JsString} {c : UInt16}
    (h : c ∈ sanitizeFilename raw) : unsafeChar c = false := by
  have hstripped : c ∈ raw.map fun c => if unsafeChar c then replacement else c := by
    simp only [sanitizeFilename] at h
    split at h
    · exact List.mem_of_mem_take h
    · exact h
  obtain ⟨d, -, rfl⟩ := List.mem_map.mp hstripped
  split
  · rfl
  · next hd => exact Bool.not_eq_true _ ▸ hd

theorem length_sanitizeFilename_le (raw : JsString) :
    (sanitizeFilename raw).length ≤ maxLength := by
  simp only [sanitizeFilename]
  split
  · rw [List.length_take]
    omega
  · next h => exact Nat.not_lt.mp h

theorem pathSeparator_notMem_sanitizeFilename (raw : JsString) :
    pathSeparator ∉ sanitizeFilename raw := by
  intro h
  have hsafe := unsafeChar_of_mem_sanitizeFilename h
  revert hsafe
  decide

theorem pathSeparator_notMem_uuid (uuid : Uuid) : pathSeparator ∉ uuid.text := by
  intro h
  have hhex := uuid.hex _ h
  revert hhex
  decide

/-- The separators of a key are the two between its parts. -/
theorem count_objectKey {ns safe : JsString} (hns : pathSeparator ∉ ns)
    (hsafe : pathSeparator ∉ safe) (uuid : Uuid) :
    (objectKey ns uuid safe).count pathSeparator = 2 := by
  unfold objectKey
  rw [List.count_append, List.count_cons_self, List.count_append, List.count_cons_self,
    List.count_eq_zero_of_not_mem hns, List.count_eq_zero_of_not_mem hsafe,
    List.count_eq_zero_of_not_mem (pathSeparator_notMem_uuid uuid)]

/-- The uuid can be read off a key. -/
theorem uuid_eq_of_objectKey_eq {ns₁ ns₂ safe₁ safe₂ : JsString} {u₁ u₂ : Uuid}
    (h₁ : pathSeparator ∉ ns₁) (h₂ : pathSeparator ∉ ns₂)
    (h : objectKey ns₁ u₁ safe₁ = objectKey ns₂ u₂ safe₂) : u₁ = u₂ := by
  have htail := (append_cons_inj h₁ h₂ h).2
  have htext := (append_cons_inj (pathSeparator_notMem_uuid u₁) (pathSeparator_notMem_uuid u₂)
    htail).1
  cases u₁
  cases u₂
  cases htext
  rfl

end EmailPlatform.Storage
