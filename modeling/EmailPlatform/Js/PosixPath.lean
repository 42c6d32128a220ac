import Mathlib.Data.List.Basic
import Mathlib.Tactic.Common

/-!
# EmailPlatform.Js.PosixPath

The POSIX flavour of Node's `path`. A path is split at its slashes; empty segments and `.`
are left out, and `..` takes the last segment away. `AbsoluteDir` is an absolute path that
needs no normalising, and `join` moves between such directories as their segments say.
-/

namespace EmailPlatform.PosixPath

/-- The segment `..`. -/
def dotDot : List Char := ['.', '.']

/-- `path.isAbsolute` -/
def isAbsolute (path : List Char) : Bool := path.head? = some '/'

/-- The segments so far, with one more segment of a path. -/
def normalizeSegment (allowAboveRoot : Bool) (segs : List (List Char)) (seg : List Char) :
    List (List Char) :=
  if seg = [] ∨ seg = ['.'] then segs
  else if seg = dotDot then
    if segs = [] ∨ segs.getLast? = some dotDot then
      if allowAboveRoot then segs ++ [seg] else segs
    else segs.dropLast
  else segs ++ [seg]

/-- `normalizeString`, by the segments of its result. -/
def normalizeString (path : List Char) (allowAboveRoot : Bool) : List (List Char) :=
  (path.splitOn '/').foldl (normalizeSegment allowAboveRoot) []

/-- `path.normalize` -/
def normalize (path : List Char) : List Char :=
  if path = [] then ['.']
  else
    let trailingSeparator : Bool := path.getLast? = some '/'
    let body := ['/'].intercalate (normalizeString path (!isAbsolute path))
    if body = [] then
      if isAbsolute path then ['/'] else if trailingSeparator then ['.', '/'] else ['.']
    else
      let body := if trailingSeparator then body ++ ['/'] else body
      if isAbsolute path then '/' :: body else body

/-- `path.join` -/
def join (args : List (List Char)) : List Char :=
  let joined := ['/'].intercalate (args.filter (· ≠ []))
  if joined = [] then ['.'] else normalize joined

/-! ### Directories -/

/-- A segment that names an entry of a directory. -/
structure Proper (seg : List Char) : Prop where
  ne_nil : seg ≠ []
  ne_dot : seg ≠ ['.']
  ne_dotDot : seg ≠ dotDot
  slash : '/' ∉ seg

/-- A normalised absolute path, by its segments. -/
structure AbsoluteDir where
  segments : List (List Char)
  proper : ∀ seg ∈ segments, Proper seg

namespace AbsoluteDir

/-- The path as a text; `/` for no segments. -/
def path (d : AbsoluteDir) : List Char := '/' :: ['/'].intercalate d.segments

/-- The directory above; `/` is its own. -/
def parent (d : AbsoluteDir) : AbsoluteDir where
  segments := d.segments.dropLast
  proper seg h := d.proper seg (List.dropLast_subset _ h)

/-- An entry of the directory. -/
def child (d : AbsoluteDir) (name : List Char) (h : Proper name) : AbsoluteDir where
  segments := d.segments ++ [name]
  proper seg hseg := by
    rcases List.mem_append.mp hseg with hd | hname
    · exact d.proper seg hd
    · exact List.mem_singleton.mp hname ▸ h

@[simp] theorem segments_parent (d : AbsoluteDir) : d.parent.segments = d.segments.dropLast := rfl

end AbsoluteDir

/-! ### Segments -/

theorem normalizeSegment_of_proper {seg : List Char} (h : Proper seg) (above : Bool)
    (segs : List (List Char)) : normalizeSegment above segs seg = segs ++ [seg] := by
  rw [normalizeSegment, if_neg (by simp [h.ne_nil, h.ne_dot]), if_neg h.ne_dotDot]

@[simp] theorem normalizeSegment_nil (above : Bool) (segs : List (List Char)) :
    normalizeSegment above segs [] = segs := if_pos (.inl rfl)

/-- Proper segments stay as they are. -/
theorem foldl_normalizeSegment {ls : List (List Char)} (h : ∀ seg ∈ ls, Proper seg)
    (above : Bool) (segs : List (List Char)) :
    ls.foldl (normalizeSegment above) segs = segs ++ ls := by
  induction ls generalizing segs with
  | nil => simp
  | cons seg ls ih =>
      rw [List.foldl_cons, normalizeSegment_of_proper (h seg List.mem_cons_self),
        ih fun s hs => h s (List.mem_cons_of_mem _ hs), List.append_assoc]
      rfl

/-- Below the root, `..` takes the last segment away. -/
theorem normalizeSegment_dotDot {segs : List (List Char)} (h : ∀ seg ∈ segs, Proper seg) :
    normalizeSegment false segs dotDot = segs.dropLast := by
  rw [normalizeSegment, if_neg (by decide), if_pos rfl]
  split
  · next hend =>
    rcases hend with rfl | hlast
    · rfl
    · exact absurd rfl (h dotDot (List.mem_of_getLast? hlast)).ne_dotDot
  · rfl

/-- Below the root, the segments are proper. -/
theorem proper_normalizeSegment {segs : List (List Char)} (h : ∀ seg ∈ segs, Proper seg)
    {seg : List Char} (hslash : '/' ∉ seg) :
    ∀ s ∈ normalizeSegment false segs seg, Proper s := by
  by_cases hdot : seg = [] ∨ seg = ['.']
  · rw [normalizeSegment, if_pos hdot]
    exact h
  · by_cases hdots : seg = dotDot
    · rw [hdots, normalizeSegment_dotDot h]
      exact fun s hs => h s (List.dropLast_subset _ hs)
    · rw [not_or] at hdot
      have hproper : Proper seg := ⟨hdot.1, hdot.2, hdots, hslash⟩
      rw [normalizeSegment_of_proper hproper]
      intro s hs
      rcases List.mem_append.mp hs with hs | hs
      · exact h s hs
      · exact List.mem_singleton.mp hs ▸ hproper

theorem proper_foldl {ls : List (List Char)} (hslash : ∀ seg ∈ ls, '/' ∉ seg) :
    ∀ segs : List (List Char), (∀ seg ∈ segs, Proper seg) →
      ∀ s ∈ ls.foldl (normalizeSegment false) segs, Proper s := by
  induction ls with
  | nil => exact fun _ h => h
  | cons seg ls ih =>
      intro segs h
      exact ih (fun s hs => hslash s (List.mem_cons_of_mem _ hs)) _
        (proper_normalizeSegment h (hslash seg List.mem_cons_self))

/-! ### Absolute paths -/

/-- A text of segments with one more, unless there were none. -/
theorem intercalate_concat {ls : List (List Char)} (h : ls ≠ []) (seg : List Char) :
    ['/'].intercalate (ls ++ [seg]) = ['/'].intercalate ls ++ '/' :: seg := by
  induction ls with
  | nil => exact absurd rfl h
  | cons s ls ih =>
      cases ls with
      | nil => simp [List.intercalate_cons_cons]
      | cons t ts =>
          rw [List.cons_append, List.cons_append, List.intercalate_cons_cons,
            ← List.cons_append, ih (List.cons_ne_nil _ _), List.intercalate_cons_cons,
            List.append_assoc, List.append_assoc, List.append_assoc]

/-- A text of segments ends as its last segment does. -/
theorem getLast?_intercalate {seg : List Char} (h : seg ≠ []) (ls : List (List Char)) :
    (['/'].intercalate (ls ++ [seg])).getLast? = seg.getLast? := by
  by_cases hls : ls = []
  · rw [hls, List.nil_append, List.intercalate_singleton]
  · rw [intercalate_concat hls, List.getLast?_append, List.getLast?_cons]
    obtain ⟨c, hc⟩ := Option.ne_none_iff_exists'.mp (mt List.getLast?_eq_none_iff.mp h)
    rw [hc]
    rfl

/-- An empty last segment is a slash at the end. -/
theorem getLast?_cons_intercalate_nil (ls : List (List Char)) :
    ('/' :: ['/'].intercalate (ls ++ [[]])).getLast? = some '/' := by
  by_cases hls : ls = []
  · rw [hls]
    rfl
  · rw [intercalate_concat hls, List.getLast?_cons, List.getLast?_append]
    rfl

/-- Segments that start with the empty one are an absolute path. -/
theorem cons_intercalate {ls : List (List Char)} (h : ls ≠ []) :
    '/' :: ['/'].intercalate ls = ['/'].intercalate ([] :: ls) := by
  cases ls with
  | nil => exact absurd rfl h
  | cons s ls => rfl

/-- The segments of an absolute path. -/
theorem normalizeString_cons_intercalate {ls : List (List Char)} (hne : ls ≠ [])
    (hslash : ∀ s ∈ ls, '/' ∉ s) :
    normalizeString ('/' :: ['/'].intercalate ls) false =
      ls.foldl (normalizeSegment false) [] := by
  have hslash' : ∀ s ∈ [] :: ls, '/' ∉ s := by
    intro s hs
    cases hs with
    | head => exact List.not_mem_nil
    | tail _ hs => exact hslash s hs
  rw [normalizeString, cons_intercalate hne,
    List.splitOn_intercalate '/' hslash' (List.cons_ne_nil _ _), List.foldl_cons,
    normalizeSegment_nil]

/-- What normalising makes of the segments of an absolute path. -/
theorem normalize_cons_intercalate {ls : List (List Char)} {seg : List Char}
    (hslash : ∀ s ∈ ls ++ [seg], '/' ∉ s) (hseg : seg ≠ []) :
    normalize ('/' :: ['/'].intercalate (ls ++ [seg])) =
      '/' :: ['/'].intercalate ((ls ++ [seg]).foldl (normalizeSegment false) []) := by
  have hne : ls ++ [seg] ≠ [] := by simp
  have hlast : ('/' :: ['/'].intercalate (ls ++ [seg])).getLast? ≠ some '/' := by
    have hlastSeg : seg.getLast? ≠ some '/' := fun h =>
      hslash seg (by simp) (List.mem_of_getLast? h)
    rwa [cons_intercalate hne, ← List.cons_append, getLast?_intercalate hseg]
  have habs : isAbsolute ('/' :: ['/'].intercalate (ls ++ [seg])) = true := rfl
  simp only [normalize, habs, Bool.not_true, normalizeString_cons_intercalate hne hslash, hlast,
    decide_false, Bool.false_eq_true, if_false, if_true, List.cons_ne_nil]
  split
  · next hbody => rw [hbody]
  · rfl

/-- No segment of a split path has a slash. -/
theorem slash_notMem_of_mem_splitOn (cs : List Char) : ∀ seg ∈ cs.splitOn '/', '/' ∉ seg := by
  induction cs with
  | nil =>
      intro seg hseg
      rw [List.splitOn_nil, List.mem_singleton] at hseg
      exact hseg ▸ List.not_mem_nil
  | cons c cs ih =>
      obtain ⟨s, ls, hsplit⟩ := List.exists_cons_of_ne_nil (List.splitOn_ne_nil '/' cs)
      rw [List.splitOn_cons_eq_if_modifyHead]
      rw [hsplit] at ih ⊢
      split
      · intro seg hseg
        rcases List.mem_cons.mp hseg with rfl | hseg
        · exact List.not_mem_nil
        · exact ih seg hseg
      · next hc =>
        intro seg hseg
        rcases List.mem_cons.mp hseg with rfl | hseg
        · have hne : '/' ≠ c := fun h => hc (beq_iff_eq.mpr h.symm)
          exact fun h => ih s List.mem_cons_self ((List.mem_cons.mp h).resolve_left hne)
        · exact ih seg (List.mem_cons_of_mem _ hseg)

namespace AbsoluteDir

/-- The text of a directory is normalised. -/
theorem normalize_path (d : AbsoluteDir) : normalize d.path = d.path := by
  rcases d.segments.eq_nil_or_concat' with hnil | ⟨ls, seg, hconcat⟩
  · rw [path, hnil]
    rfl
  · have hproper := d.proper
    rw [hconcat] at hproper
    rw [path, hconcat, normalize_cons_intercalate (fun s hs => (hproper s hs).slash)
      (hproper seg (by simp)).ne_nil, foldl_normalizeSegment hproper, List.nil_append]

/-- The segments can be read off the text. -/
theorem normalizeString_path (d : AbsoluteDir) : normalizeString d.path false = d.segments := by
  by_cases hnil : d.segments = []
  · rw [path, hnil]
    rfl
  · rw [path, normalizeString_cons_intercalate hnil fun s hs => (d.proper s hs).slash,
      foldl_normalizeSegment d.proper, List.nil_append]

/-- A normalised absolute path that does not end in a slash is the text of a directory, and
so is `/`. -/
theorem exists_path_eq {p : List Char} (habs : isAbsolute p = true) (hnorm : normalize p = p)
    (hlast : p = ['/'] ∨ p.getLast? ≠ some '/') : ∃ d : AbsoluteDir, d.path = p := by
  rcases hlast with rfl | hlast
  · exact ⟨⟨[], fun _ h => absurd h List.not_mem_nil⟩, rfl⟩
  · obtain ⟨c, cs, rfl⟩ := List.exists_cons_of_ne_nil (l := p) (by rintro rfl; cases habs)
    obtain rfl : c = '/' := by simpa [isAbsolute] using habs
    obtain ⟨ls, seg, hconcat⟩ :=
      cs.splitOn '/' |>.eq_nil_or_concat'.resolve_left (List.splitOn_ne_nil _ _)
    have hcs : ['/'].intercalate (cs.splitOn '/') = cs := List.intercalate_splitOn '/'
    have hslash := slash_notMem_of_mem_splitOn cs
    rw [hconcat] at hcs hslash
    have hseg : seg ≠ [] := by
      intro heq
      subst heq
      rw [← hcs, getLast?_cons_intercalate_nil] at hlast
      exact hlast rfl
    rw [← hcs, normalize_cons_intercalate hslash hseg] at hnorm
    exact ⟨⟨_, proper_foldl hslash [] fun _ h => absurd h List.not_mem_nil⟩, hcs ▸ hnorm⟩

end AbsoluteDir

/-- Two arguments that are not empty are joined by a slash. -/
theorem join_pair {a b : List Char} (ha : a ≠ []) (hb : b ≠ []) :
    join [a, b] = normalize (a ++ '/' :: b) := by
  have hfilter : [a, b].filter (· ≠ []) = [a, b] := by simp [ha, hb]
  have hjoined : ['/'].intercalate [a, b] = a ++ '/' :: b := by simp [List.intercalate_cons_cons]
  rw [join, hfilter, hjoined]
  exact if_neg (by simp)

/-- The segments of a directory, one more segment behind them. -/
theorem foldl_padded (d : AbsoluteDir) (seg : List Char) {pad : List (List Char)}
    (hpad : ∀ s ∈ pad, s = []) :
    (pad ++ d.segments ++ [seg]).foldl (normalizeSegment false) [] =
      normalizeSegment false d.segments seg := by
  have hnil : pad.foldl (normalizeSegment false) [] = [] := by
    induction pad with
    | nil => rfl
    | cons s pad ih =>
        obtain rfl := hpad s List.mem_cons_self
        exact ih fun s hs => hpad s (List.mem_cons_of_mem _ hs)
  rw [List.foldl_append, List.foldl_append, hnil, foldl_normalizeSegment d.proper]
  rfl

/-- One more segment below a directory, whatever it is. -/
theorem join_path (d : AbsoluteDir) {seg : List Char} (hne : seg ≠ []) (hslash : '/' ∉ seg) :
    join [d.path, seg] =
      '/' :: ['/'].intercalate (normalizeSegment false d.segments seg) := by
  -- the root has an empty segment of its own
  obtain ⟨pad, hpad, htext⟩ : ∃ pad : List (List Char), (∀ s ∈ pad, s = []) ∧
      d.path ++ '/' :: seg = '/' :: ['/'].intercalate (pad ++ d.segments ++ [seg]) := by
    cases hsegs : d.segments with
    | nil =>
        refine ⟨[[]], by simp, ?_⟩
        rw [AbsoluteDir.path, hsegs]
        simp [List.intercalate_cons_cons]
    | cons s ls =>
        refine ⟨[], by simp, ?_⟩
        rw [AbsoluteDir.path, hsegs, List.nil_append, intercalate_concat (List.cons_ne_nil _ _)]
        rfl
  have hslashes : ∀ s ∈ pad ++ d.segments ++ [seg], '/' ∉ s := by
    intro s hs
    rcases List.mem_append.mp hs with hs | hs
    · rcases List.mem_append.mp hs with hs | hs
      · exact hpad s hs ▸ List.not_mem_nil
      · exact (d.proper s hs).slash
    · exact List.mem_singleton.mp hs ▸ hslash
  have hpath : d.path ≠ [] := List.cons_ne_nil _ _
  rw [join_pair hpath hne, htext, normalize_cons_intercalate hslashes hne,
    foldl_padded d seg hpad]

/-- `join(dir, '..')` -/
theorem join_dotDot (d : AbsoluteDir) : join [d.path, dotDot] = d.parent.path := by
  rw [join_path d (by decide) (by decide), normalizeSegment_dotDot d.proper]
  rfl

/-- `join(dir, name)` -/
theorem join_child (d : AbsoluteDir) {name : List Char} (h : Proper name) :
    join [d.path, name] = (d.child name h).path := by
  rw [join_path d h.ne_nil h.slash, normalizeSegment_of_proper h]
  rfl

end EmailPlatform.PosixPath
