import EmailPlatform.Storage.NamespacedStorage
import Mathlib.Algebra.GroupWithZero.Nat

/-!
# EmailPlatform.Storage.SizeCounter

**The size counter forwards exactly what fits.** A `SizeCountingTransform` is written any
chunks in any order. What it puts out is the longest prefix of whole chunks within the
limit; it fails at the chunk behind that prefix, when there is one, and is silent from then
on (`run_forwardsWhatFits`).

What is assumed of `Transform` is built into `run`: `_transform` is called once per written
chunk, in order, and not again after its callback reported an error.
-/

namespace EmailPlatform.Storage

/-- The size of a sequence of chunks. -/
def totalLength (chunks : List (List UInt8)) : Nat := (chunks.map List.length).sum

@[simp] theorem totalLength_nil : totalLength [] = 0 := rfl

@[simp] theorem totalLength_cons (chunk : List UInt8) (chunks : List (List UInt8)) :
    totalLength (chunk :: chunks) = chunk.length + totalLength chunks := by
  simp [totalLength]

theorem totalLength_append (p q : List (List UInt8)) :
    totalLength (p ++ q) = totalLength p + totalLength q := by
  simp [totalLength]

theorem totalLength_concat (chunks : List (List UInt8)) (chunk : List UInt8) :
    totalLength (chunks ++ [chunk]) = totalLength chunks + chunk.length := by
  simp [totalLength_append]

/-- It is the size of the bytes in a row. -/
theorem length_flatten_eq (chunks : List (List UInt8)) :
    chunks.flatten.length = totalLength chunks := List.length_flatten

/-- `new SizeCountingTransform(max)` -/
def SizeCountingTransform.new (max : Nat) : SizeCountingTransform := ⟨max, 0⟩

/-- What a counter puts out. -/
structure Counted where
  chunks : List (List UInt8)
  error : Option StorageUploadTooLargeError
  deriving DecidableEq, Repr

/-- A counter is written chunks. -/
def SizeCountingTransform.run (self : SizeCountingTransform) : List (List UInt8) → Counted
  | [] => ⟨[], none⟩
  | chunk :: rest =>
    match self.transform chunk with
    | (next, .ok out) => { next.run rest with chunks := out :: (next.run rest).chunks }
    | (_, .error err) => ⟨[], some err⟩

namespace SizeCountingTransform

variable {self : SizeCountingTransform} {chunk : List UInt8} {rest : List (List UInt8)}

/-- A chunk that fits is put out. -/
theorem run_cons_of_le (h : self.seen + chunk.length ≤ self.max) :
    self.run (chunk :: rest) =
      ⟨chunk :: (run ⟨self.max, self.seen + chunk.length⟩ rest).chunks,
        (run ⟨self.max, self.seen + chunk.length⟩ rest).error⟩ := by
  simp only [run, transform, gt_iff_lt]
  rw [if_neg (Nat.not_lt.mpr h)]

/-- A chunk that does not fit ends the stream. -/
theorem run_cons_of_lt (h : self.max < self.seen + chunk.length) :
    self.run (chunk :: rest) = ⟨[], some ⟨self.seen + chunk.length, self.max⟩⟩ := by
  simp only [run, transform, gt_iff_lt]
  rw [if_pos h]

/-- The chunks put out are the longest prefix that fits beside what was seen. -/
theorem isLongestPrefix_run (chunks : List (List UInt8)) :
    ∀ self : SizeCountingTransform, self.seen ≤ self.max →
      IsLongestPrefix (fun p => self.seen + totalLength p ≤ self.max) chunks
        (self.run chunks).chunks := by
  induction chunks with
  | nil =>
      intro self hseen
      exact .refl (by simpa using hseen)
  | cons chunk rest ih =>
      intro self hseen
      rcases Nat.lt_or_ge self.max (self.seen + chunk.length) with hlt | hle
      · rw [run_cons_of_lt hlt]
        refine .nil_of_cons (by simpa using hseen) fun q hq => ?_
        rw [totalLength_cons] at hq
        omega
      · rw [run_cons_of_le hle]
        refine .cons ?_
        simpa only [totalLength_cons, Nat.add_assoc] using
          ih ⟨self.max, self.seen + chunk.length⟩ hle

/-- An error is reported at the chunk behind those put out, with the size up to it. -/
theorem error_run (chunks : List (List UInt8)) :
    ∀ (self : SizeCountingTransform), ∀ err ∈ (self.run chunks).error,
      ∃ chunk rest, chunks = (self.run chunks).chunks ++ chunk :: rest ∧
        err = ⟨self.seen + totalLength ((self.run chunks).chunks ++ [chunk]), self.max⟩ ∧
          self.max < err.seen := by
  induction chunks with
  | nil =>
      intro self err h
      cases h
  | cons chunk rest ih =>
      intro self err h
      rcases Nat.lt_or_ge self.max (self.seen + chunk.length) with hlt | hle
      · rw [run_cons_of_lt hlt] at h ⊢
        obtain rfl := Option.some.inj h
        exact ⟨chunk, rest, rfl, by simp, hlt⟩
      · rw [run_cons_of_le hle] at h ⊢
        obtain ⟨next, tail, hrest, rfl, hseen⟩ := ih _ err h
        refine ⟨next, tail, congrArg (chunk :: ·) hrest, ?_, hseen⟩
        rw [List.cons_append, totalLength_cons, Nat.add_assoc]

/-- Without an error, all chunks are put out. -/
theorem chunks_run_of_error_eq_none (chunks : List (List UInt8)) :
    ∀ self : SizeCountingTransform, (self.run chunks).error = none →
      (self.run chunks).chunks = chunks := by
  induction chunks with
  | nil => exact fun _ _ => rfl
  | cons chunk rest ih =>
      intro self h
      rcases Nat.lt_or_ge self.max (self.seen + chunk.length) with hlt | hle
      · rw [run_cons_of_lt hlt] at h
        cases h
      · rw [run_cons_of_le hle] at h ⊢
        exact congrArg (chunk :: ·) (ih _ h)

/-- What is written after the error changes nothing. -/
theorem run_append_of_error (chunks more : List (List UInt8)) :
    ∀ self : SizeCountingTransform, (self.run chunks).error ≠ none →
      self.run (chunks ++ more) = self.run chunks := by
  induction chunks with
  | nil => exact fun _ h => absurd rfl h
  | cons chunk rest ih =>
      intro self h
      rw [List.cons_append]
      rcases Nat.lt_or_ge self.max (self.seen + chunk.length) with hlt | hle
      · rw [run_cons_of_lt hlt, run_cons_of_lt hlt]
      · rw [run_cons_of_le hle] at h
        rw [run_cons_of_le hle, run_cons_of_le hle, ih _ h]

end SizeCountingTransform

/-! ### The law of the counter -/

/-- `out` is what fits of `chunks` under `max`, with the error that is due. -/
structure ForwardsWhatFits (max : Nat) (chunks : List (List UInt8)) (out : Counted) : Prop where
  /-- The chunks put out are the longest prefix within the limit. -/
  longest : IsLongestPrefix (fun p => totalLength p ≤ max) chunks out.chunks
  /-- The counter fails exactly when all chunks together exceed the limit. -/
  fails_iff : out.error.isSome ↔ max < totalLength chunks
  /-- It fails at the first chunk with which the limit is exceeded. -/
  error_at : ∀ err ∈ out.error, ∃ chunk rest, chunks = out.chunks ++ chunk :: rest ∧
    err = ⟨totalLength (out.chunks ++ [chunk]), max⟩ ∧ max < err.seen
  /-- Exactly `max` bytes pass whole. -/
  exact_passes : totalLength chunks = max → out = ⟨chunks, none⟩
  /-- The bytes put out never exceed the limit. -/
  bounded : out.chunks.flatten.length ≤ max

namespace SizeCountingTransform

/-- The counter fails exactly when it is written too much. -/
theorem isSome_error_run (self : SizeCountingTransform) (hseen : self.seen ≤ self.max)
    (chunks : List (List UInt8)) :
    (self.run chunks).error.isSome ↔ self.max < self.seen + totalLength chunks := by
  cases he : (self.run chunks).error with
  | none =>
      have hfits := (isLongestPrefix_run chunks self hseen).holds
      rw [chunks_run_of_error_eq_none chunks self he] at hfits
      simpa using hfits
  | some err =>
      obtain ⟨chunk, rest, hchunks, rfl, hlt⟩ := error_run chunks self err he
      refine ⟨fun _ => ?_, fun _ => rfl⟩
      rw [hchunks, List.append_cons, totalLength_append]
      exact Nat.lt_of_lt_of_le hlt (by simp only; omega)

end SizeCountingTransform

/-- `SizeCountingTransform` forwards what fits, whatever the chunks; after an error no more
comes out. -/
theorem run_forwardsWhatFits (max : Nat) (chunks : List (List UInt8)) :
    ForwardsWhatFits max chunks ((SizeCountingTransform.new max).run chunks) ∧
      ∀ more, ((SizeCountingTransform.new max).run chunks).error ≠ none →
        (SizeCountingTransform.new max).run (chunks ++ more) =
          (SizeCountingTransform.new max).run chunks := by
  have hlongest := (SizeCountingTransform.new max).isLongestPrefix_run chunks (Nat.zero_le _)
  have hfails := (SizeCountingTransform.new max).isSome_error_run (Nat.zero_le _) chunks
  have herror := (SizeCountingTransform.new max).error_run chunks
  simp only [SizeCountingTransform.new, Nat.zero_add] at hlongest hfails herror ⊢
  refine ⟨⟨hlongest, hfails, herror, fun heq => ?_, ?_⟩,
    fun more => SizeCountingTransform.run_append_of_error chunks more _⟩
  · have hnone : (SizeCountingTransform.run ⟨max, 0⟩ chunks).error = none := by
      rw [← Option.not_isSome_iff_eq_none, hfails]
      omega
    exact congr (congrArg Counted.mk (hlongest.unique (.refl (Nat.le_of_eq heq)))) hnone
  · rw [length_flatten_eq]
    exact hlongest.holds

end EmailPlatform.Storage
