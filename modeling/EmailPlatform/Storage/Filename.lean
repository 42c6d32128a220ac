import EmailPlatform.Storage.PublicAddress

/-!
# EmailPlatform.Storage.Filename

**When a sanitised filename is a usable segment of a key.** Replacement and the limit work on
single code units. Replacement leaves surrogates alone, so it keeps a filename well-formed;
the limit of 255 units may part a surrogate pair, and nothing else goes wrong
(`usableSegment_sanitizeFilename_iff`).
-/

namespace EmailPlatform.Storage

open JsString

/-- `safe` can stand in a key for the filename `raw`. -/
structure UsableSegment (raw safe : JsString) : Prop where
  /-- At most 255 code units. -/
  short : safe.length ≤ 255
  /-- No `/`, backslash or control character. -/
  clean : ∀ u ∈ safe,
    u.toNat ≠ 0x2F ∧ u.toNat ≠ 0x5C ∧ ¬ u.toNat ≤ 0x1F ∧ u.toNat ≠ 0x7F
  /-- Sanitising it again changes nothing. -/
  stable : sanitizeFilename safe = safe
  /-- Where it has a unit, `raw` has one, and an allowed one is kept. -/
  agrees : ∀ i, i < safe.length → ∃ u, raw[i]? = some u ∧
    (unsafeChar u = false → safe[i]? = some u)
  /-- It can be encoded if `raw` can. -/
  encodable : isWellFormed raw = true → isWellFormed safe = true

/-- The limit falls within a surrogate pair of a well-formed filename. -/
structure CutsPair (raw : JsString) : Prop where
  wellFormed : isWellFormed raw = true
  long : maxLength < raw.length
  high : ∃ u ∈ raw[maxLength - 1]?, isHigh u = true

theorem safeUnit_of_allowed {u : UInt16} (h : unsafeChar u = false) : safeUnit u = u :=
  if_neg (by rw [h]; exact Bool.false_ne_true)

/-- An allowed unit comes out of every unit. -/
theorem unsafeChar_safeUnit (u : UInt16) : unsafeChar (safeUnit u) = false := by
  cases h : unsafeChar u with
  | true =>
      rw [safeUnit, if_pos h]
      rfl
  | false => rw [safeUnit_of_allowed h, h]

theorem safeUnit_safeUnit (u : UInt16) : safeUnit (safeUnit u) = safeUnit u :=
  safeUnit_of_allowed (unsafeChar_safeUnit u)

/-- Sanitising twice is sanitising once. -/
theorem sanitizeFilename_sanitizeFilename (raw : JsString) :
    sanitizeFilename (sanitizeFilename raw) = sanitizeFilename raw := by
  rw [sanitizeFilename_eq (sanitizeFilename raw),
    List.take_of_length_le (length_sanitizeFilename_le raw), sanitizeFilename_eq, List.map_map]
  exact List.map_congr_left fun u _ => safeUnit_safeUnit u

/-- Each unit of the result stands for the unit of the filename at its place. -/
theorem getElem?_sanitizeFilename {raw : JsString} {i : Nat}
    (hi : i < (sanitizeFilename raw).length) :
    (sanitizeFilename raw)[i]? = raw[i]?.map safeUnit := by
  rw [sanitizeFilename_eq] at hi ⊢
  rw [List.length_map, List.length_take] at hi
  rw [List.getElem?_map, List.getElem?_take_of_lt (by omega)]

/-- The result is well-formed where the filename is, unless the limit parts a pair. -/
theorem isWellFormed_sanitizeFilename_iff {raw : JsString} (h : isWellFormed raw = true) :
    isWellFormed (sanitizeFilename raw) = true ↔ ¬ CutsPair raw := by
  rw [sanitizeFilename_eq, isWellFormed_map_safeUnit]
  rcases Nat.lt_or_ge maxLength raw.length with hlong | hshort
  · have hlast : (raw.take maxLength).getLast? = raw[maxLength - 1]? := by
      rw [List.getLast?_eq_getElem?, List.length_take, Nat.min_eq_left hlong.le,
        List.getElem?_take_of_lt (by decide)]
    rw [isWellFormed_take_iff h, hlast]
    constructor
    · intro hlow hcut
      obtain ⟨u, hu, hhigh⟩ := hcut.high
      rw [hlow u hu] at hhigh
      cases hhigh
    · intro hcut u hu
      exact Bool.eq_false_iff.mpr fun hhigh => hcut ⟨h, hlong, u, hu, hhigh⟩
  · rw [List.take_of_length_le hshort]
    exact ⟨fun _ hcut => absurd hcut.long (Nat.not_lt.mpr hshort), fun _ => h⟩

/-- `sanitizeFilename` yields a usable segment, unless the limit parts a pair. -/
theorem usableSegment_sanitizeFilename_iff (raw : JsString) :
    UsableSegment raw (sanitizeFilename raw) ↔ ¬ CutsPair raw := by
  constructor
  · intro h hcut
    exact (isWellFormed_sanitizeFilename_iff hcut.wellFormed).mp (h.encodable hcut.wellFormed) hcut
  · intro hcut
    refine ⟨length_sanitizeFilename_le raw, fun u hu => ?_, sanitizeFilename_sanitizeFilename raw,
      fun i hi => ?_, fun hraw => (isWellFormed_sanitizeFilename_iff hraw).mpr hcut⟩
    · have hsafe := unsafeChar_of_mem_sanitizeFilename hu
      rw [← Bool.not_eq_true, unsafeChar_iff] at hsafe
      omega
    · have hget := getElem?_sanitizeFilename hi
      have hsome : ((sanitizeFilename raw)[i]?).isSome := by
        rw [List.getElem?_eq_getElem hi]
        rfl
      rw [hget, Option.isSome_map, Option.isSome_iff_exists] at hsome
      obtain ⟨u, hu⟩ := hsome
      refine ⟨u, hu, fun hallowed => ?_⟩
      rw [hget, hu, Option.map_some, safeUnit_of_allowed hallowed]

/-- A name of 254 letters and a character outside the basic plane. -/
def longEmojiName : JsString := ofChars (List.replicate 254 'a' ++ [Char.ofNat 0x1F600])

/-- The limit keeps the first half of the pair. -/
theorem not_usableSegment_longEmojiName :
    isWellFormed longEmojiName = true ∧
      ¬ UsableSegment longEmojiName (sanitizeFilename longEmojiName) := by
  have hwell : isWellFormed longEmojiName = true := isWellFormed_ofChars _
  have hcut : CutsPair longEmojiName :=
    ⟨hwell, by decide +kernel, 0xD83D, by decide +kernel, by decide⟩
  exact ⟨hwell, fun h => (isWellFormed_sanitizeFilename_iff hwell).mp (h.encodable hwell) hcut⟩

end EmailPlatform.Storage
