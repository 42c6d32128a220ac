import EmailPlatform.Url.Percent
import Mathlib.Algebra.GroupWithZero.Nat

/-!
# EmailPlatform.Url.Path

**Paths of URLs.** The path of a URL string is split at its slashes; each segment is
encoded and then joined to the path, except that the dot segments leave it out or take the
last segment away.

What becomes of a text that is appended to a path is settled by one measure, the decoded
length of a path (`weight`). Every segment adds at most its own length. A dot segment or an
escape adds less, so a text that has either is not found again in the decoded path
(`parseSegments_split`); a text with neither is, up to its slashes (`utf8Bytes_split`).
-/

namespace EmailPlatform.Url

/-- Segments and schemes are equal when their characters are. -/
instance lawfulBEq_chars : LawfulBEq (List Char) := inferInstance

/-- The ways to write a dot. -/
def dots : List (List Char) := [['.'], ['%', '2', 'e'], ['%', '2', 'E']]

/-- A single-dot URL path segment. -/
def isSingleDot (seg : List Char) : Bool := seg ∈ dots

/-- A double-dot URL path segment. -/
def isDoubleDot (seg : List Char) : Bool := seg ∈ dots.flatMap fun d => dots.map (d ++ ·)

/-- Either. -/
def isDot (seg : List Char) : Bool := isSingleDot seg || isDoubleDot seg

/-- The path with one more segment; `last` at the end of the path. -/
def finishSegment (last : Bool) (path : List (List Char)) (seg : List Char) : List (List Char) :=
  if isDoubleDot seg then
    if last then path.dropLast ++ [[]] else path.dropLast
  else if isSingleDot seg then
    if last then path ++ [[]] else path
  else path ++ [seg]

/-- The path with the segments that are left. -/
def parseSegments : List (List Char) → List (List Char) → List (List Char)
  | path, [] => path
  | path, [seg] => finishSegment true path seg
  | path, seg :: segs => parseSegments (finishSegment false path seg) segs

/-- What separates segments: also a backslash where the scheme is special. -/
def isSlash (special : Bool) (c : Char) : Bool := c = '/' || (special && c = '\\')

/-- The path of a URL, from its first slash on. -/
def parsePath (special : Bool) : List Char → List (List Char)
  | [] => if special then [[]] else []
  | _ :: cs => parseSegments [] ((cs.splitOnP (isSlash special)).map percentEncode)

/-- The URL path serializer. -/
def pathname (path : List (List Char)) : List Char := path.flatMap ('/' :: ·)

/-! ### The decoded length of a path -/

/-- The length of a path once it is decoded. -/
def weight (path : List (List Char)) : Nat :=
  (path.map fun seg => 1 + (percentDecode seg).length).sum

theorem weight_append (path segs : List (List Char)) :
    weight (path ++ segs) = weight path + weight segs := by
  simp [weight]

theorem weight_singleton (seg : List Char) : weight [seg] = 1 + (percentDecode seg).length := by
  simp [weight]

theorem weight_dropLast_le (path : List (List Char)) : weight path.dropLast ≤ weight path := by
  rcases path.eq_nil_or_concat with rfl | ⟨init, seg, rfl⟩
  · exact Nat.le_refl _
  · rw [List.concat_eq_append, List.dropLast_concat, weight_append]
    exact Nat.le_add_right _ _

theorem pathname_append (path segs : List (List Char)) :
    pathname (path ++ segs) = pathname path ++ pathname segs := List.flatMap_append

/-- A path is decoded segment by segment. -/
theorem percentDecode_pathname (path : List (List Char)) :
    percentDecode (pathname path) = path.flatMap fun seg => 0x2F :: percentDecode seg := by
  induction path with
  | nil => rfl
  | cons seg path ih =>
      have hhead : ∀ d ∈ (pathname path).head?, hexVal? d = none := by
        cases path with
        | nil => simp [pathname]
        | cons s path =>
            intro d heq
            cases heq
            rfl
      show percentDecode ('/' :: (seg ++ pathname path)) = _
      rw [percentDecode_cons_of_ne (by decide), percentDecode_append seg hhead, ih]
      rfl

theorem length_percentDecode_pathname (path : List (List Char)) :
    (percentDecode (pathname path)).length = weight path := by
  rw [percentDecode_pathname, List.length_flatMap]
  simp [weight, Nat.add_comm]

theorem percentDecode_of_isSingleDot {seg : List Char} (h : isSingleDot seg = true) :
    percentDecode seg = utf8Bytes ['.'] := by
  have hall : ∀ seg ∈ dots, percentDecode seg = utf8Bytes ['.'] := by decide
  exact hall seg (of_decide_eq_true h)

theorem percentDecode_of_isDoubleDot {seg : List Char} (h : isDoubleDot seg = true) :
    percentDecode seg = utf8Bytes ['.', '.'] := by
  have hall : ∀ seg ∈ dots.flatMap fun d => dots.map (d ++ ·),
      percentDecode seg = utf8Bytes ['.', '.'] := by decide
  exact hall seg (of_decide_eq_true h)

/-- A text without escapes is a dot segment only as `.` or `..`. -/
theorem isDot_percentEncode_eq_false_iff {seg : List Char} (h : hasEscape seg = false) :
    isDot (percentEncode seg) = false ↔ seg ≠ ['.'] ∧ seg ≠ ['.', '.'] := by
  have hdecode : percentDecode (percentEncode seg) = utf8Bytes seg :=
    (percentDecode_percentEncode seg).trans (percentDecode_of_not_hasEscape h)
  constructor
  · intro hdot
    constructor
    · intro heq
      subst heq
      exact absurd hdot (by decide)
    · intro heq
      subst heq
      exact absurd hdot (by decide)
  · intro ⟨hsingle, hdouble⟩
    rw [isDot, Bool.or_eq_false_iff, ← Bool.not_eq_true, ← Bool.not_eq_true]
    refine ⟨fun h => hsingle (utf8Bytes_injective ?_), fun h => hdouble (utf8Bytes_injective ?_)⟩
    · rw [← hdecode, percentDecode_of_isSingleDot h]
    · rw [← hdecode, percentDecode_of_isDoubleDot h]

theorem finishSegment_of_not_isDot {seg : List Char} (h : isDot seg = false) (last : Bool)
    (path : List (List Char)) : finishSegment last path seg = path ++ [seg] := by
  obtain ⟨hsingle, hdouble⟩ := Bool.or_eq_false_iff.mp h
  rw [finishSegment, hdouble, hsingle, if_neg Bool.false_ne_true, if_neg Bool.false_ne_true]

theorem parseSegments_of_not_isDot {segs : List (List Char)} (h : ∀ seg ∈ segs, isDot seg = false)
    (path : List (List Char)) : parseSegments path segs = path ++ segs := by
  induction segs generalizing path with
  | nil => exact (List.append_nil path).symm
  | cons seg segs ih =>
      have hseg := h seg List.mem_cons_self
      cases segs with
      | nil => exact finishSegment_of_not_isDot hseg true path
      | cons s segs =>
          show parseSegments (finishSegment false path seg) (s :: segs) = _
          rw [finishSegment_of_not_isDot hseg, ih fun x hx => h x (List.mem_cons_of_mem _ hx),
            List.append_assoc]
          rfl

/-- A segment is appended, or the path becomes shorter than it would then be. -/
theorem finishSegment_cases (last : Bool) (path : List (List Char)) (seg : List Char) :
    (isDot seg = false ∧ finishSegment last path seg = path ++ [seg]) ∨
      weight (finishSegment last path seg) < weight path + weight [seg] := by
  have hempty : weight [[]] = 1 := rfl
  have hdrop := weight_dropLast_le path
  unfold finishSegment
  by_cases hdouble : isDoubleDot seg = true
  · right
    have hlen : (percentDecode seg).length = 2 := by
      rw [percentDecode_of_isDoubleDot hdouble]
      rfl
    rw [if_pos hdouble, weight_singleton]
    split
    · rw [weight_append]
      omega
    · omega
  · by_cases hsingle : isSingleDot seg = true
    · right
      have hlen : (percentDecode seg).length = 1 := by
        rw [percentDecode_of_isSingleDot hsingle]
        rfl
      rw [if_neg hdouble, if_pos hsingle, weight_singleton]
      split
      · rw [weight_append]
        omega
      · omega
    · left
      rw [if_neg hdouble, if_neg hsingle]
      exact ⟨by simp [isDot, hdouble, hsingle], rfl⟩

theorem parseSegments_cases (path segs : List (List Char)) :
    ((∀ seg ∈ segs, isDot seg = false) ∧ parseSegments path segs = path ++ segs) ∨
      weight (parseSegments path segs) < weight path + weight segs := by
  induction segs generalizing path with
  | nil => exact .inl ⟨by simp, (List.append_nil path).symm⟩
  | cons seg segs ih =>
      have hcons : weight (seg :: segs) = weight [seg] + weight segs :=
        weight_append [seg] segs
      cases segs with
      | nil =>
          show ((∀ s ∈ [seg], _) ∧ finishSegment true path seg = _) ∨ _
          rcases finishSegment_cases true path seg with ⟨hdot, hfin⟩ | hlt
          · exact .inl ⟨by simpa using hdot, hfin⟩
          · exact .inr hlt
      | cons s segs =>
          have hstep : parseSegments path (seg :: s :: segs) =
              parseSegments (finishSegment false path seg) (s :: segs) := rfl
          rw [hstep]
          rcases finishSegment_cases false path seg with ⟨hdot, hfin⟩ | hlt
          · rcases ih (finishSegment false path seg) with ⟨hdots, hparse⟩ | hlt
            · refine .inl ⟨?_, ?_⟩
              · intro x hx
                rcases List.mem_cons.mp hx with rfl | hx
                · exact hdot
                · exact hdots x hx
              · rw [hparse, hfin, List.append_assoc]
                rfl
            · right
              rw [hfin, weight_append] at hlt
              rw [hfin]
              omega
          · right
            rcases ih (finishSegment false path seg) with ⟨-, hparse⟩ | hlt'
            · rw [hparse, weight_append]
              omega
            · omega

/-- The segments but the last are finished one by one. -/
theorem parseSegments_append (path segs : List (List Char)) {rest : List (List Char)}
    (hrest : rest ≠ []) :
    parseSegments path (segs ++ rest) =
      parseSegments (segs.foldl (finishSegment false) path) rest := by
  induction segs generalizing path with
  | nil => rfl
  | cons seg segs ih =>
      have hne : segs ++ rest ≠ [] := fun h => hrest (List.append_eq_nil_iff.mp h).2
      obtain ⟨s, ss, hss⟩ := List.exists_cons_of_ne_nil hne
      have hstep : parseSegments path (seg :: (segs ++ rest)) =
          parseSegments (finishSegment false path seg) (segs ++ rest) := by
        rw [hss]
        rfl
      show parseSegments path (seg :: (segs ++ rest)) = _
      rw [hstep, ih]
      rfl

/-! ### Splitting a text -/

/-- The separators become slashes. -/
def slashed (special : Bool) (cs : List Char) : List Char :=
  cs.map fun c => if isSlash special c then '/' else c

/-- A text is its segments, each behind a slash. -/
theorem utf8Bytes_split (special : Bool) (cs : List Char) :
    (cs.splitOnP (isSlash special)).flatMap (fun seg => 0x2F :: utf8Bytes seg) =
      0x2F :: utf8Bytes (slashed special cs) := by
  induction cs with
  | nil => rfl
  | cons c cs ih =>
      rw [List.splitOnP_cons_eq_if_modifyHead]
      by_cases hc : isSlash special c = true
      · rw [if_pos hc, List.flatMap_cons, ih]
        show 0x2F :: (0x2F :: utf8Bytes (slashed special cs)) =
          0x2F :: (utf8 (if isSlash special c then '/' else c) ++ utf8Bytes (slashed special cs))
        rw [if_pos hc]
        rfl
      · obtain ⟨seg, segs, hsplit⟩ :=
          List.exists_cons_of_ne_nil (List.splitOnP_ne_nil (isSlash special) cs)
        rw [hsplit, List.flatMap_cons] at ih
        have htail : utf8Bytes seg ++ segs.flatMap (fun seg => 0x2F :: utf8Bytes seg) =
            utf8Bytes (slashed special cs) := (List.cons.inj ih).2
        rw [if_neg hc, hsplit, List.modifyHead_cons, List.flatMap_cons]
        show 0x2F :: ((utf8 c ++ utf8Bytes seg) ++ _) =
          0x2F :: (utf8 (if isSlash special c then '/' else c) ++ utf8Bytes (slashed special cs))
        rw [if_neg hc, List.append_assoc, htail]

theorem length_utf8Bytes_slashed (special : Bool) (cs : List Char) :
    (utf8Bytes (slashed special cs)).length = (utf8Bytes cs).length := by
  induction cs with
  | nil => rfl
  | cons c cs ih =>
      show (utf8Bytes ((if isSlash special c then '/' else c) :: slashed special cs)).length = _
      rw [length_utf8Bytes_cons, length_utf8Bytes_cons, ih]
      congr 1
      split
      · next hc =>
        rcases Bool.or_eq_true_iff.mp hc with hc | hc
        · rw [of_decide_eq_true hc]
        · rw [of_decide_eq_true (Bool.and_eq_true_iff.mp hc).2]
          rfl
      · rfl

/-- Only a text without backslashes is found again as it was. -/
theorem slashed_eq_of_utf8Bytes_eq {special : Bool} {cs : List Char}
    (h : utf8Bytes (slashed special cs) = utf8Bytes cs) :
    special = true → '\\' ∉ cs := by
  intro heq
  subst heq
  induction cs with
  | nil => exact List.not_mem_nil
  | cons c cs ih =>
      have hcons : utf8 (if isSlash true c then '/' else c) ++ utf8Bytes (slashed true cs) =
          utf8 c ++ utf8Bytes cs := h
      obtain ⟨hhead, htail⟩ := List.append_inj' hcons
        (length_utf8Bytes_slashed true cs)
      rw [List.mem_cons, not_or]
      refine ⟨?_, ih htail⟩
      intro heq
      subst heq
      exact absurd hhead (by decide)

theorem slashed_of_notMem {special : Bool} {cs : List Char}
    (h : special = true → '\\' ∉ cs) : slashed special cs = cs := by
  refine (List.map_congr_left fun c hc => ?_).trans (List.map_id cs)
  show (if isSlash special c then '/' else c) = c
  split
  · next hslash =>
    rcases Bool.or_eq_true_iff.mp hslash with hslash | hslash
    · exact (of_decide_eq_true hslash).symm
    · obtain ⟨hspecial, hback⟩ := Bool.and_eq_true_iff.mp hslash
      obtain rfl := of_decide_eq_true hback
      exact absurd hc (h hspecial)
  · rfl

/-! ### A text appended to a path -/

theorem weight_map_percentEncode (segs : List (List Char)) :
    weight (segs.map percentEncode) = weight segs := by
  simp [weight, percentDecode_percentEncode, Function.comp_def]

/-- Segments without escapes keep their length. -/
theorem weight_cases (segs : List (List Char)) :
    weight segs ≤ (segs.flatMap fun seg => 0x2F :: utf8Bytes seg).length ∧
      ((∀ seg ∈ segs, hasEscape seg = false) ∨
        weight segs < (segs.flatMap fun seg => 0x2F :: utf8Bytes seg).length) := by
  induction segs with
  | nil => exact ⟨Nat.le_refl _, .inl (by simp)⟩
  | cons seg segs ih =>
      have hcons : weight (seg :: segs) = weight [seg] + weight segs := weight_append [seg] segs
      obtain ⟨hle, hlt⟩ := length_percentDecode seg
      rw [hcons, weight_singleton, List.flatMap_cons, List.length_append, List.length_cons]
      refine ⟨by omega, ?_⟩
      by_cases hesc : hasEscape seg = true
      · right
        have hshorter := hlt hesc
        omega
      · rcases ih.2 with hnone | hshorter
        · left
          intro x hx
          rcases List.mem_cons.mp hx with rfl | hx
          · exact Bool.eq_false_iff.mpr hesc
          · exact hnone x hx
        · right
          omega

/-- A text is appended to a path segment by segment, without dot segments or escapes, or
the path becomes shorter than it would then be. -/
theorem parseSegments_split (special : Bool) (path : List (List Char)) (cs : List Char) :
    ((∀ seg ∈ cs.splitOnP (isSlash special),
        isDot (percentEncode seg) = false ∧ hasEscape seg = false) ∧
      parseSegments path ((cs.splitOnP (isSlash special)).map percentEncode) =
        path ++ (cs.splitOnP (isSlash special)).map percentEncode) ∨
    weight (parseSegments path ((cs.splitOnP (isSlash special)).map percentEncode)) <
      weight path + (1 + (utf8Bytes cs).length) := by
  have htotal : ((cs.splitOnP (isSlash special)).flatMap fun seg => 0x2F :: utf8Bytes seg).length =
      1 + (utf8Bytes cs).length := by
    rw [utf8Bytes_split, List.length_cons, length_utf8Bytes_slashed, Nat.add_comm]
  obtain ⟨hle, hcases⟩ := weight_cases (cs.splitOnP (isSlash special))
  rw [htotal] at hle hcases
  rcases parseSegments_cases path ((cs.splitOnP (isSlash special)).map percentEncode)
    with ⟨hdots, hparse⟩ | hlt
  · rcases hcases with hnone | hshorter
    · exact .inl ⟨fun seg hseg => ⟨hdots _ (List.mem_map_of_mem hseg), hnone seg hseg⟩, hparse⟩
    · right
      rw [hparse, weight_append, weight_map_percentEncode]
      omega
  · right
    rw [weight_map_percentEncode] at hlt
    omega

/-- Segments without escapes are decoded to the text they come from. -/
theorem percentDecode_pathname_split {special : Bool} {cs : List Char}
    (h : ∀ seg ∈ cs.splitOnP (isSlash special), hasEscape seg = false) :
    percentDecode (pathname ((cs.splitOnP (isSlash special)).map percentEncode)) =
      0x2F :: utf8Bytes (slashed special cs) := by
  rw [percentDecode_pathname, List.flatMap_map, ← utf8Bytes_split]
  refine List.flatMap_congr fun seg hseg => ?_
  rw [percentDecode_percentEncode, percentDecode_of_not_hasEscape (h seg hseg)]

/-! ### Directories -/

/-- The path that a slash behind a path's text leaves open. -/
def directory (special : Bool) : List Char → List (List Char)
  | [] => []
  | _ :: cs =>
    ((cs.splitOnP (isSlash special)).map percentEncode).foldl (finishSegment false) []

/-- What follows a slash is joined to the directory before it. -/
theorem parsePath_append (special : Bool) (dir cs : List Char) :
    parsePath special (dir ++ '/' :: cs) =
      parseSegments (directory special dir)
        ((cs.splitOnP (isSlash special)).map percentEncode) := by
  cases dir with
  | nil => rfl
  | cons c dir =>
      show parseSegments [] (((dir ++ '/' :: cs).splitOnP (isSlash special)).map percentEncode) = _
      rw [List.splitOnP_append_cons _ _ (by simp [isSlash]), List.map_append]
      exact parseSegments_append [] _ (by simp [List.splitOnP_ne_nil])

/-- The last segment of a text. -/
theorem exists_last_segment (special : Bool) (cs : List Char) :
    ∃ segs seg, cs.splitOnP (isSlash special) = segs ++ [seg] ∧ '/' ∉ seg ∧
      (seg = [] → cs = [] ∨ ∃ c ∈ cs.getLast?, isSlash special c = true) := by
  induction cs with
  | nil => exact ⟨[], [], rfl, List.not_mem_nil, fun _ => .inl rfl⟩
  | cons c cs ih =>
      obtain ⟨segs, seg, hsplit, hseg, hempty⟩ := ih
      rw [List.splitOnP_cons_eq_if_modifyHead, hsplit]
      split
      · next hc =>
        refine ⟨[] :: segs, seg, rfl, hseg, fun hnil => .inr ?_⟩
        rcases hempty hnil with rfl | ⟨d, hd, hslash⟩
        · exact ⟨c, rfl, hc⟩
        · exact ⟨d, by simp [List.getLast?_cons, Option.mem_def.mp hd], hslash⟩
      · next hc =>
        cases segs with
        | nil =>
            refine ⟨[], c :: seg, rfl, ?_, by simp⟩
            rw [List.mem_cons, not_or]
            exact ⟨fun h => hc (by simp [← h, isSlash]), hseg⟩
        | cons s segs =>
            refine ⟨(c :: s) :: segs, seg, rfl, hseg, fun hnil => .inr ?_⟩
            rcases hempty hnil with rfl | ⟨d, hd, hslash⟩
            · simp at hsplit
            · exact ⟨d, by simp [List.getLast?_cons, Option.mem_def.mp hd], hslash⟩

end EmailPlatform.Url
