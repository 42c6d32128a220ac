import EmailPlatform.Url.Base

/-!
# EmailPlatform.Url.Below

**A name below a base URL.** Directories that the parser leaves as they are, then a name that may
hold anything but a slash. However the parser reads the name, the URL stays below the base: in the
last directory, or at a bare slash behind the one before it (`Base.parse_below`).
-/

namespace EmailPlatform.Url

variable {A : Type} {parseAuthority : Bool → List Char → Option A}

/-- A segment that the parser leaves as it is, wherever it stands. -/
structure Steady (special : Bool) (seg : List Char) : Prop where
  char : ∀ c ∈ seg, isTabOrNewline c = false ∧ isSlash special c = false ∧
    c ∉ ['?', '#', '%']
  not_dot : seg ≠ ['.'] ∧ seg ≠ ['.', '.']

/-- Directories and a name. -/
def below (dirs : List (List Char)) (name : List Char) : List Char :=
  dirs.flatMap (· ++ ['/']) ++ name

variable {special : Bool} {seg name : List Char} {dirs : List (List Char)}

theorem below_cons : below (seg :: dirs) name = seg ++ '/' :: below dirs name := by
  simp [below]

theorem Steady.not_hasEscape (hs : Steady special seg) : hasEscape seg = false :=
  hasEscape_of_notMem fun h => (hs.char _ h).2.2 (by simp)

theorem Steady.not_isDot (hs : Steady special seg) : isDot (percentEncode seg) = false :=
  (isDot_percentEncode_eq_false_iff hs.not_hasEscape).mpr hs.not_dot

/-- What is cut from a text is cut behind its plain characters. -/
theorem pathPart_append_cons {cs : List Char}
    (hcs : ∀ c ∈ cs, isTabOrNewline c = false ∧ c ≠ '?' ∧ c ≠ '#') (ds : List Char) :
    pathPart (cs ++ '/' :: ds) = cs ++ '/' :: pathPart ds := by
  have hfilter : cs.filter (fun c => !isTabOrNewline c) = cs := by
    refine List.filter_eq_self.mpr fun c hc => ?_
    rw [(hcs c hc).1]
    rfl
  have hmark : '?' ∉ cs := fun h => (hcs _ h).2.1 rfl
  have hhash : '#' ∉ cs := fun h => (hcs _ h).2.2 rfl
  unfold pathPart
  rw [rdropWhile_append_cons (by decide), List.filter_append, hfilter,
    List.filter_cons_of_pos (by decide), cutAt_append hhash (by decide),
    cutAt_append hmark (by decide)]

theorem pathPart_below (hdirs : ∀ seg ∈ dirs, Steady special seg) :
    pathPart (below dirs name) = below dirs (pathPart name) := by
  induction dirs with
  | nil => rfl
  | cons seg dirs ih =>
      have hseg := (hdirs seg List.mem_cons_self).char
      rw [below_cons, below_cons, pathPart_append_cons,
        ih fun x hx => hdirs x (List.mem_cons_of_mem _ hx)]
      refine fun c hc => ⟨(hseg c hc).1, ?_, ?_⟩
      · rintro rfl
        exact (hseg _ hc).2.2 (by simp)
      · rintro rfl
        exact (hseg _ hc).2.2 (by simp)

theorem splitOnP_below (hdirs : ∀ seg ∈ dirs, Steady special seg)
    (hname : ∀ c ∈ name, isSlash special c = false) :
    (below dirs name).splitOnP (isSlash special) = dirs ++ [name] := by
  induction dirs with
  | nil => exact List.splitOnP_eq_singleton hname
  | cons seg dirs ih =>
      have hseg := (hdirs seg List.mem_cons_self).char
      rw [below_cons, List.splitOnP_append_cons _ _ (by simp [isSlash]),
        List.splitOnP_eq_singleton fun c hc => (hseg c hc).2.1,
        ih fun x hx => hdirs x (List.mem_cons_of_mem _ hx)]
      rfl

theorem foldl_finishSegment (hdirs : ∀ seg ∈ dirs, Steady special seg)
    (path : List (List Char)) :
    (dirs.map percentEncode).foldl (finishSegment false) path =
      path ++ dirs.map percentEncode := by
  induction dirs generalizing path with
  | nil => exact (List.append_nil path).symm
  | cons seg dirs ih =>
      have hdot := (hdirs seg List.mem_cons_self).not_isDot
      rw [List.map_cons, List.foldl_cons, finishSegment_of_not_isDot hdot,
        ih fun x hx => hdirs x (List.mem_cons_of_mem _ hx), List.append_assoc]
      rfl

/-- The last segment comes last, or a slash does. -/
theorem finishSegment_last (path : List (List Char)) (seg : List Char) :
    (∃ e, finishSegment true path seg = path ++ [e]) ∨
      finishSegment true path seg = path.dropLast ++ [[]] := by
  unfold finishSegment
  split
  · exact .inr (if_pos rfl)
  · split
    · exact .inl ⟨[], if_pos rfl⟩
    · exact .inl ⟨seg, rfl⟩

/-- **A name below a base stays there**, in its directory or one directory above. -/
theorem Base.parse_below (b : Base parseAuthority) (hne : dirs ≠ [])
    (hdirs : ∀ seg ∈ dirs, Steady b.record.isSpecial seg)
    (hname : ∀ c ∈ name, isSlash b.record.isSpecial c = false) :
    ∃ u rest, parse parseAuthority (b.join (below dirs name)) = some u ∧
      u.pathname = b.path ++ rest ∧
      ((∃ bytes, percentDecode rest =
          dirs.flatMap (fun seg => 0x2F :: utf8Bytes seg) ++ 0x2F :: bytes) ∨
        percentDecode rest =
          dirs.dropLast.flatMap (fun seg => 0x2F :: utf8Bytes seg) ++ [0x2F]) := by
  obtain ⟨u, path, hparse, hpath, hpathname⟩ := b.parse_join (below dirs name)
  have hcut : ∀ c ∈ pathPart name, isSlash b.record.isSpecial c = false :=
    fun c hc => hname c ((pathPart_sublist name).subset hc)
  have hdecode : ∀ segs, segs ⊆ dirs → ∀ e,
      percentDecode (pathname (segs.map percentEncode ++ [e])) =
        segs.flatMap (fun seg => 0x2F :: utf8Bytes seg) ++ 0x2F :: percentDecode e := by
    intro segs hsub e
    rw [percentDecode_pathname, List.flatMap_append, List.flatMap_map]
    refine congr (congrArg _ (List.flatMap_congr fun seg hseg => ?_)) (by simp)
    rw [percentDecode_percentEncode,
      percentDecode_of_not_hasEscape (hdirs seg (hsub hseg)).not_hasEscape]
  rw [pathPart_below hdirs, splitOnP_below hdirs hcut, List.map_append,
    parseSegments_append _ _ (by simp), foldl_finishSegment hdirs] at hpathname
  have hlast : parseSegments (path ++ dirs.map percentEncode) ([pathPart name].map percentEncode) =
      finishSegment true (path ++ dirs.map percentEncode) (percentEncode (pathPart name)) := rfl
  rw [hlast] at hpathname
  rcases finishSegment_last (path ++ dirs.map percentEncode) (percentEncode (pathPart name)) with
    ⟨e, hfin⟩ | hfin
  · rw [hfin, List.append_assoc, pathname_append, ← hpath] at hpathname
    exact ⟨u, _, hparse, hpathname, .inl ⟨_, hdecode dirs (List.Subset.refl _) e⟩⟩
  · have hmap : dirs.map percentEncode ≠ [] := by simpa using hne
    rw [hfin, List.dropLast_append_of_ne_nil hmap, List.append_assoc, pathname_append, ← hpath,
      ← List.map_dropLast] at hpathname
    exact ⟨u, _, hparse, hpathname,
      .inr (hdecode dirs.dropLast (List.dropLast_subset _) [])⟩

end EmailPlatform.Url
