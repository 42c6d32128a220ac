import EmailPlatform.Url.Parse

/-!
# EmailPlatform.Url.Base

**Texts joined to a base URL** by a slash. The text is not encoded, so the parser reads it as
part of the URL: what is found below the base path is the text itself exactly when the parser
takes nothing off it, cuts nothing from it and finds no dot segment or escape in it
(`Base.addresses_iff`).
-/

namespace EmailPlatform.Url

variable {A : Type} {parseAuthority : Bool → List Char → Option A}

/-! ### Base URLs -/

/-- A text without one slash at its end. -/
def dropSlash (cs : List Char) : List Char := if cs.getLast? = some '/' then cs.dropLast else cs

/-- An absolute URL without query and fragment, as one writes it: no controls, spaces or
backslashes, and at most one slash at its end. -/
structure Base (parseAuthority : Bool → List Char → Option A) where
  text : List Char
  plain : ∀ c ∈ text, isC0OrSpace c = false ∧ c ≠ '\\'
  one_slash : ¬ ['/', '/'] <:+ text
  record : Record A
  parses : parse parseAuthority text = some record
  query : record.query = none
  fragment : record.fragment = none

/-- The path of the base, which may end in one slash. -/
def Base.path (b : Base parseAuthority) : List Char := dropSlash b.record.pathname

/-- A text joined to the base. -/
def Base.join (b : Base parseAuthority) (cs : List Char) : List Char :=
  dropSlash b.text ++ '/' :: cs

theorem dropSlash_concat (cs : List Char) : dropSlash (cs ++ ['/']) = cs := by
  simp [dropSlash]

theorem dropSlash_of_ne {cs : List Char} (h : cs.getLast? ≠ some '/') : dropSlash cs = cs :=
  if_neg h

/-! ### The base and its directory -/

theorem isTabOrNewline_of_not_isC0OrSpace {c : Char} (h : isC0OrSpace c = false) :
    isTabOrNewline c = false := by
  unfold isC0OrSpace at h
  unfold isTabOrNewline
  rw [decide_eq_false_iff_not] at h ⊢
  simp only [List.mem_cons, List.not_mem_nil, or_false]
  omega

theorem rdropWhile_append_cons {p : Char → Bool} {c : Char} (hc : p c = false)
    (cs ds : List Char) : (cs ++ c :: ds).rdropWhile p = cs ++ c :: ds.rdropWhile p := by
  induction ds using List.reverseRecOn with
  | nil => exact List.rdropWhile_concat_neg p cs c (by rw [hc]; exact Bool.false_ne_true)
  | append_singleton ds d ih =>
      rw [← List.cons_append, ← List.append_assoc, List.rdropWhile_concat, List.rdropWhile_concat]
      split
      · exact ih
      · simp

/-- Cleaning a text behind a plain one leaves that one as it is. -/
theorem clean_append {cs : List Char} {c : Char} (hcs : ∀ d ∈ cs, isC0OrSpace d = false)
    (hc : isC0OrSpace c = false) (ds : List Char) :
    clean (cs ++ c :: ds) =
      cs ++ c :: (ds.rdropWhile isC0OrSpace).filter fun d => !isTabOrNewline d := by
  have hdrop : (cs ++ c :: ds).dropWhile isC0OrSpace = cs ++ c :: ds := by
    cases cs with
    | nil => exact List.dropWhile_cons_of_neg (by rw [hc]; exact Bool.false_ne_true)
    | cons x cs =>
        exact List.dropWhile_cons_of_neg (by
          rw [hcs x List.mem_cons_self]
          exact Bool.false_ne_true)
  have hfilter : cs.filter (fun d => !isTabOrNewline d) = cs := by
    refine List.filter_eq_self.mpr fun d hd => ?_
    rw [isTabOrNewline_of_not_isC0OrSpace (hcs d hd)]
    rfl
  rw [clean, hdrop, rdropWhile_append_cons hc, List.filter_append, hfilter, List.filter_cons_of_pos]
  rw [isTabOrNewline_of_not_isC0OrSpace hc]
  rfl

theorem clean_eq_self {cs : List Char} (h : ∀ c ∈ cs, isC0OrSpace c = false) : clean cs = cs := by
  rcases List.eq_nil_or_concat cs with rfl | ⟨init, c, rfl⟩
  · rfl
  · rw [List.concat_eq_append] at h ⊢
    exact clean_append (fun d hd => h d (List.mem_append_left _ hd)) (h c (by simp)) []

/-- A part that was not cut off is all there is. -/
theorem cutAt_eq_of_none {c : Char} {cs : List Char} (h : (cutAt c cs).2 = none) :
    (cutAt c cs).1 = cs ∧ c ∉ cs := by
  have hdrop : cs.dropWhile (· ≠ c) = [] := by
    cases hcs : cs.dropWhile (· ≠ c) with
    | nil => rfl
    | cons d ds =>
        unfold cutAt at h
        rw [hcs] at h
        cases h
  rw [List.dropWhile_eq_nil_iff] at hdrop
  refine ⟨List.takeWhile_eq_self_iff.mpr hdrop, fun hc => ?_⟩
  exact of_decide_eq_true (hdrop c hc) rfl

theorem dropSlash_pathname_parsePath_cons {special : Bool} {cs : List Char} (hne : cs ≠ [])
    (hcs : ∀ c ∈ cs.getLast?, isSlash special c = false) (c : Char) :
    dropSlash (pathname (parsePath special (c :: cs))) =
      pathname (directory special (c :: cs)) := by
  obtain ⟨segs, seg, hsplit, hseg, hempty⟩ := exists_last_segment special cs
  -- The last segment is not empty, as the path does not end in a slash.
  have hseg_ne : percentEncode seg ≠ [] := by
    intro hnil
    have hnil' : seg = [] := by
      cases seg with
      | nil => rfl
      | cons x seg =>
          rcases encodeChar_cases x with hx | ⟨-, es, hx⟩ <;>
            simp [percentEncode, hx] at hnil
    rcases hempty hnil' with h | ⟨d, hd, hslash⟩
    · exact hne h
    · rw [hcs d hd] at hslash
      cases hslash
  have hparse : parsePath special (c :: cs) = finishSegment true
      ((segs.map percentEncode).foldl (finishSegment false) []) (percentEncode seg) := by
    show parseSegments [] ((cs.splitOnP (isSlash special)).map percentEncode) = _
    rw [hsplit, List.map_append]
    exact parseSegments_append [] _ (List.cons_ne_nil _ _)
  have hdirectory : directory special (c :: cs) = finishSegment false
      ((segs.map percentEncode).foldl (finishSegment false) []) (percentEncode seg) := by
    show ((cs.splitOnP (isSlash special)).map percentEncode).foldl (finishSegment false) [] = _
    rw [hsplit, List.map_append, List.foldl_append]
    rfl
  -- Both have gone through all segments but the last; a dot is dropped, or goes up, in both.
  rw [hparse, hdirectory]
  generalize (segs.map percentEncode).foldl (finishSegment false) [] = path
  have hslash := slash_notMem_percentEncode hseg
  have hconcat : ∀ path : List (List Char), dropSlash (pathname (path ++ [[]])) = pathname path :=
    fun path => (congrArg dropSlash (pathname_append path [[]])).trans (dropSlash_concat _)
  unfold finishSegment
  split
  · exact hconcat _
  · split
    · exact hconcat _
    · obtain ⟨init, x, hx⟩ := (List.eq_nil_or_concat _).resolve_left hseg_ne
      have htext : pathname (path ++ [percentEncode seg]) =
          (pathname path ++ '/' :: init) ++ [x] := by
        rw [pathname_append, hx]
        simp [pathname]
      refine dropSlash_of_ne ?_
      rw [htext, List.getLast?_concat]
      intro hlast
      rw [hx, Option.some.inj hlast] at hslash
      exact hslash (by simp)

/-- A path whose text does not end in a slash is the directory below it. -/
theorem dropSlash_pathname_parsePath {special : Bool} {tail : List Char}
    (hhead : ∀ c ∈ tail.head?, c = '/') (hlast : tail.getLast? ≠ some '/')
    (hback : ∀ c ∈ tail, c ≠ '\\') :
    dropSlash (pathname (parsePath special tail)) = pathname (directory special tail) := by
  cases tail with
  | nil =>
      show dropSlash (pathname (if special then [[]] else [])) = []
      split <;> rfl
  | cons c cs =>
      have hc : c = '/' := hhead c rfl
      refine dropSlash_pathname_parsePath_cons ?_ ?_ c
      · intro heq
        subst heq
        exact hlast (congrArg some hc)
      · intro d hd
        have hd' : (c :: cs).getLast? = some d := by
          simp [List.getLast?_cons, Option.mem_def.mp hd]
        have hne : d ≠ '/' := fun h => hlast (h ▸ hd')
        simp [isSlash, hne, hback d (List.mem_of_mem_getLast? hd')]

theorem Front.getLast?_text (f : Front parseAuthority) (h : ¬ ['/', '/'] <:+ f.text) :
    f.text.getLast? ≠ some '/' := by
  rcases List.eq_nil_or_concat f.authority with hnil | ⟨init, x, hconcat⟩
  · have hspecial : ¬ Url.isSpecial f.scheme = true := fun hspecial => f.authority_ne hspecial hnil
    have hslash := f.isSlash
    rw [if_neg hspecial] at hslash
    refine absurd ⟨f.scheme ++ [':'], ?_⟩ h
    simp [Front.text, hslash, hnil]
  · have htext : f.text = (f.scheme ++ ':' :: (f.slashes ++ init)) ++ [x] := by
      simp [Front.text, hconcat]
    rw [htext, List.getLast?_concat]
    intro heq
    cases heq
    have hends := f.not_ends '/' (by simp [hconcat])
    simp [endsAuthority, Url.isSlash] at hends

/-- The text of a base is a front and the text of its path. -/
theorem Base.exists_tail (b : Base parseAuthority) :
    ∃ (f : Front parseAuthority) (tail : List Char), f.special = b.record.isSpecial ∧
      b.text = f.text ++ tail ∧ (∀ c ∈ tail.head?, c = '/') ∧ '?' ∉ tail ∧ '#' ∉ tail ∧
      b.record.pathname = pathname (parsePath f.special tail) := by
  have hparses := b.parses
  rw [parse, clean_eq_self fun c hc => (b.plain c hc).1] at hparses
  obtain ⟨f, tail, htail, htext, hrecord⟩ := exists_front hparses
  have hfragment : (Record.ofTail f.scheme f.value tail).fragment = none := hrecord ▸ b.fragment
  obtain ⟨hbody, hhash⟩ := cutAt_eq_of_none (show (cutAt '#' tail).2 = none from hfragment)
  have hquery : (Record.ofTail f.scheme f.value tail).query = none := hrecord ▸ b.query
  have hquery : (cutAt '?' (cutAt '#' tail).1).2 = none := hquery
  rw [hbody] at hquery
  obtain ⟨hpath, hmark⟩ := cutAt_eq_of_none hquery
  refine ⟨f, tail, by rw [hrecord]; rfl, htext, ?_, hmark, hhash, ?_⟩
  · intro c hc
    have hmem := List.mem_of_mem_head? hc
    have hends := htail c hc
    simp only [endsAuthority, Url.isSlash, Bool.or_eq_true, Bool.and_eq_true,
      decide_eq_true_eq] at hends
    rcases hends with ((h | ⟨-, h⟩) | h) | h
    · exact h
    · exact absurd h (b.plain c (htext ▸ List.mem_append_right _ hmem)).2
    · exact absurd (h ▸ hmem) hmark
    · exact absurd (h ▸ hmem) hhash
  · rw [hrecord]
    show pathname (parsePath f.special (cutAt '?' (cutAt '#' tail).1).1) = _
    rw [hbody, hpath]

/-- Without the slash at its end it is a front and the text of a directory. -/
theorem Base.exists_directory (b : Base parseAuthority) :
    ∃ (f : Front parseAuthority) (dir : List Char), f.special = b.record.isSpecial ∧
      dropSlash b.text = f.text ++ dir ∧ (∀ c ∈ dir.head?, c = '/') ∧ '?' ∉ dir ∧ '#' ∉ dir ∧
      b.path = pathname (directory f.special dir) := by
  obtain ⟨f, tail, hspecial, htext, hhead, hmark, hhash, hpathname⟩ := b.exists_tail
  rw [Base.path, hpathname]
  by_cases hlast : tail.getLast? = some '/'
  · obtain ⟨dir, rfl⟩ := List.getLast?_eq_some_iff.mp hlast
    refine ⟨f, dir, hspecial, ?_, ?_, ?_, ?_, ?_⟩
    · rw [htext, ← List.append_assoc, dropSlash_concat]
    · exact fun c hc => hhead c (List.mem_head?_append_of_mem_head? hc)
    · exact fun h => hmark (List.mem_append_left _ h)
    · exact fun h => hhash (List.mem_append_left _ h)
    · rw [parsePath_append]
      show dropSlash (pathname (directory f.special dir ++ [[]])) = _
      rw [pathname_append]
      exact dropSlash_concat _
  · refine ⟨f, tail, hspecial, ?_, hhead, hmark, hhash, ?_⟩
    · rw [htext]
      refine dropSlash_of_ne ?_
      cases tail with
      | nil =>
          rw [List.append_nil] at htext ⊢
          exact f.getLast?_text (htext ▸ b.one_slash)
      | cons c body =>
          rw [List.getLast?_append_cons]
          exact hlast
    · refine dropSlash_pathname_parsePath hhead hlast ?_
      exact fun c hc => (b.plain c (htext ▸ List.mem_append_right _ hc)).2

/-! ### A text joined to the base -/

/-- What the parser reads as path of a text joined to a base. -/
def pathPart (cs : List Char) : List Char :=
  (cutAt '?' (cutAt '#' ((cs.rdropWhile isC0OrSpace).filter fun c => !isTabOrNewline c)).1).1

/-- The text is read as path, and as it stands. -/
structure Verbatim (special : Bool) (cs : List Char) : Prop where
  no_space : ∀ c ∈ cs.getLast?, isC0OrSpace c = false
  no_newline : ∀ c ∈ cs, isTabOrNewline c = false
  no_query : '?' ∉ cs
  no_fragment : '#' ∉ cs
  no_backslash : special = true → '\\' ∉ cs
  segment : ∀ seg ∈ cs.splitOnP (isSlash special),
    hasEscape seg = false ∧ seg ≠ ['.'] ∧ seg ≠ ['.', '.']

theorem cutAt_append {c d : Char} {cs : List Char} (hcs : c ∉ cs) (hd : d ≠ c) (ds : List Char) :
    (cutAt c (cs ++ d :: ds)).1 = cs ++ d :: (cutAt c ds).1 := by
  show (cs ++ d :: ds).takeWhile (· ≠ c) = _
  have htake : ∀ x ∈ cs, decide (x ≠ c) = true := fun x hx =>
    decide_eq_true fun h => hcs (h ▸ hx)
  rw [List.takeWhile_append_of_pos htake]
  exact congrArg (cs ++ ·) (List.takeWhile_cons_of_pos (decide_eq_true hd))

theorem cutAt_sublist (c : Char) (cs : List Char) : (cutAt c cs).1.Sublist cs :=
  List.takeWhile_sublist _

theorem pathPart_sublist (cs : List Char) : (pathPart cs).Sublist cs :=
  (cutAt_sublist _ _).trans <| (cutAt_sublist _ _).trans <|
    List.filter_sublist.trans (List.rdropWhile_prefix _ cs).sublist

theorem cutAt_eq_self_iff {c : Char} {cs : List Char} : (cutAt c cs).1 = cs ↔ c ∉ cs := by
  show cs.takeWhile (· ≠ c) = cs ↔ _
  rw [List.takeWhile_eq_self_iff]
  exact ⟨fun h hc => of_decide_eq_true (h c hc) rfl, fun h d hd =>
    decide_eq_true fun heq => h (heq ▸ hd)⟩

theorem rdropWhile_eq_self_iff {p : Char → Bool} {cs : List Char} :
    cs.rdropWhile p = cs ↔ ∀ c ∈ cs.getLast?, p c = false := by
  rw [List.rdropWhile_eq_self_iff]
  constructor
  · intro h c hc
    obtain ⟨hne, rfl⟩ := List.mem_getLast?_eq_getLast hc
    exact Bool.not_eq_true _ ▸ h hne
  · intro h hne
    rw [h _ (List.getLast?_eq_some_getLast hne)]
    exact Bool.false_ne_true

theorem eq_of_sublist {l m cs : List Char} (hl : l.Sublist m) (hm : m.Sublist cs) (h : l = cs) :
    m = cs := hm.antisymm (h ▸ hl)

/-- The parser leaves a text as it is when none of its four cuts takes anything. -/
theorem pathPart_eq_self_iff {cs : List Char} :
    pathPart cs = cs ↔ (∀ c ∈ cs.getLast?, isC0OrSpace c = false) ∧
      (∀ c ∈ cs, isTabOrNewline c = false) ∧ '?' ∉ cs ∧ '#' ∉ cs := by
  have hfilter : cs.filter (fun c => !isTabOrNewline c) = cs ↔
      ∀ c ∈ cs, isTabOrNewline c = false := by
    rw [List.filter_eq_self]
    exact forall₂_congr fun c _ => by simp
  constructor
  · intro h
    have h₁ := (List.rdropWhile_prefix isC0OrSpace cs).sublist
    have h₂ := (List.filter_sublist (p := fun c => !isTabOrNewline c)).trans h₁
    have h₃ := (cutAt_sublist '#' _).trans h₂
    -- from the last cut to the first, each leaves all of the text
    have hhash := eq_of_sublist (cutAt_sublist '?' _) h₃ h
    have hnewline := eq_of_sublist (cutAt_sublist '#' _) h₂ hhash
    have hspace := eq_of_sublist List.filter_sublist h₁ hnewline
    rw [pathPart, hhash] at h
    rw [hnewline] at hhash
    rw [hspace] at hnewline
    exact ⟨rdropWhile_eq_self_iff.mp hspace, hfilter.mp hnewline, cutAt_eq_self_iff.mp h,
      cutAt_eq_self_iff.mp hhash⟩
  · intro ⟨hspace, hnewline, hmark, hhash⟩
    rw [pathPart, rdropWhile_eq_self_iff.mpr hspace, hfilter.mpr hnewline,
      cutAt_eq_self_iff.mpr hhash, cutAt_eq_self_iff.mpr hmark]

theorem Base.parse_join (b : Base parseAuthority) (cs : List Char) :
    ∃ u path, parse parseAuthority (b.join cs) = some u ∧ b.path = pathname path ∧
      u.pathname = pathname (parseSegments path
        (((pathPart cs).splitOnP (isSlash b.record.isSpecial)).map percentEncode)) := by
  obtain ⟨f, dir, hspecial, htext, hhead, hmark, hhash, hpath⟩ := b.exists_directory
  have hplain : ∀ c ∈ f.text ++ dir, isC0OrSpace c = false := by
    rw [← htext]
    refine fun c hc => (b.plain c ?_).1
    unfold dropSlash at hc
    split at hc
    · exact (List.dropLast_sublist _).subset hc
    · exact hc
  have hclean : clean (b.join cs) = f.text ++ (dir ++ '/' ::
      (cs.rdropWhile isC0OrSpace).filter fun c => !isTabOrNewline c) := by
    rw [Base.join, htext, clean_append hplain (by decide), List.append_assoc]
  have hfollows : ∀ ds, FollowsAuthority f.special (dir ++ '/' :: ds) := by
    intro ds c hc
    have hslash : c = '/' := by
      cases dir with
      | nil => exact (Option.some.inj hc).symm
      | cons d dir => exact hhead c hc
    rw [hslash]
    rfl
  refine ⟨_, directory f.special dir, (congrArg _ hclean).trans (f.parseClean_append (hfollows _)),
    hpath, ?_⟩
  · show pathname (parsePath f.special (cutAt '?' (cutAt '#' _).1).1) = _
    rw [cutAt_append hhash (by decide), cutAt_append hmark (by decide), parsePath_append, hspecial]
    rfl

theorem utf8Bytes_sublist {cs ds : List Char} (h : cs.Sublist ds) :
    (utf8Bytes cs).Sublist (utf8Bytes ds) := by
  induction h with
  | slnil => exact List.Sublist.refl _
  | cons c _ ih => exact ih.trans (List.sublist_append_right (utf8 c) _)
  | cons_cons c _ ih => exact ih.append_left (utf8 c)

theorem eq_of_length_utf8Bytes {cs ds : List Char} (h : cs.Sublist ds)
    (hlen : (utf8Bytes ds).length ≤ (utf8Bytes cs).length) : cs = ds := by
  exact utf8Bytes_injective ((utf8Bytes_sublist h).eq_of_length_le hlen)

/-- What decodes to a slash at its head is decoded apart from what stands before it. -/
theorem percentDecode_append_of_slash {cs rest : List Char} {bytes : List UInt8}
    (h : percentDecode rest = 0x2F :: bytes) :
    percentDecode (cs ++ rest) = percentDecode cs ++ percentDecode rest := by
  refine percentDecode_append cs fun d hd => ?_
  cases rest with
  | nil => cases hd
  | cons c rest =>
      obtain rfl := Option.some.inj hd
      by_contra hhex
      have hne : c ≠ '%' := by
        intro heq
        subst heq
        exact hhex rfl
      rw [percentDecode_cons_of_ne hne] at h
      rw [← Ne, hexVal?_ne_none_iff] at hhex
      rw [utf8_of_lt (by omega)] at h
      have hbyte := congrArg UInt8.toNat (List.cons.inj h).1
      rw [UInt8.toNat_ofNat_of_lt' (show c.toNat < 256 by omega)] at hbyte
      have hslash : (0x2F : UInt8).toNat = 0x2F := rfl
      omega

/-- **A text joined to a base** is found below its path as it stands exactly when the
parser reads it as it stands. -/
theorem Base.addresses_iff (b : Base parseAuthority) (cs : List Char) :
    (∃ u rest, parse parseAuthority (b.join cs) = some u ∧ u.pathname = b.path ++ rest ∧
        percentDecode rest = utf8Bytes ('/' :: cs)) ↔
      Verbatim b.record.isSpecial cs := by
  obtain ⟨u, path, hparse, hpath, hpathname⟩ := b.parse_join cs
  constructor
  · intro ⟨u', rest, hparse', hrest, hdecode⟩
    obtain rfl := Option.some.inj (hparse.symm.trans hparse')
    have hrest := hpathname.symm.trans (hrest.trans (congrArg (· ++ rest) hpath))
    have hlen := congrArg List.length (congrArg percentDecode hrest)
    rw [percentDecode_append_of_slash hdecode, hdecode, List.length_append,
      length_percentDecode_pathname, length_percentDecode_pathname, length_utf8Bytes_cons] at hlen
    have hslash : (utf8 '/').length = 1 := rfl
    rcases parseSegments_split b.record.isSpecial path (pathPart cs) with ⟨hsegs, hparsed⟩ | hlt
    · have hdecoded := percentDecode_pathname_split fun seg hseg => (hsegs seg hseg).2
      have hweight := congrArg List.length hdecoded
      rw [length_percentDecode_pathname, List.length_cons, length_utf8Bytes_slashed] at hweight
      rw [hparsed, weight_append] at hlen
      have hself : pathPart cs = cs := eq_of_length_utf8Bytes (pathPart_sublist cs) (by omega)
      rw [hparsed, pathname_append] at hrest
      rw [List.append_cancel_left hrest] at hdecoded
      rw [hself] at hsegs hdecoded
      obtain ⟨hspace, hnewline, hmark, hhash⟩ := pathPart_eq_self_iff.mp hself
      have hback := slashed_eq_of_utf8Bytes_eq (List.cons.inj (hdecoded.symm.trans hdecode)).2
      refine ⟨hspace, hnewline, hmark, hhash, hback, fun seg hseg => ?_⟩
      obtain ⟨hdot, hesc⟩ := hsegs seg hseg
      exact ⟨hesc, (isDot_percentEncode_eq_false_iff hesc).mp hdot⟩
    · have hle := (utf8Bytes_sublist (pathPart_sublist cs)).length_le
      omega
  · intro h
    have hself := pathPart_eq_self_iff.mpr ⟨h.no_space, h.no_newline, h.no_query, h.no_fragment⟩
    rw [hself, parseSegments_of_not_isDot, pathname_append, ← hpath] at hpathname
    · refine ⟨u, _, hparse, hpathname, ?_⟩
      rw [percentDecode_pathname_split fun seg hseg => (h.segment seg hseg).1,
        slashed_of_notMem h.no_backslash]
      rfl
    · intro e he
      obtain ⟨seg, hseg, rfl⟩ := List.mem_map.mp he
      obtain ⟨hesc, hne⟩ := h.segment seg hseg
      exact (isDot_percentEncode_eq_false_iff hesc).mpr hne

end EmailPlatform.Url
