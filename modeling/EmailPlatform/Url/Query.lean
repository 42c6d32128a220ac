import EmailPlatform.Url.Base
import EmailPlatform.Url.Form
import Mathlib.Data.Bool.AllAny

/-!
# EmailPlatform.Url.Query

**A path and a query behind a base URL.** Whatever the query says, the URL keeps the scheme and
the authority of the base, and its path is the one of the base and the one behind it
(`Base.parse_query`).
-/

namespace EmailPlatform.Url

variable {A : Type} {parseAuthority : Bool → List Char → Option A}

/-- A character that the parser reads where it stands, ahead of the fragment. -/
def IsPlain (c : Char) : Prop := isC0OrSpace c = false ∧ c ≠ '#'

instance (c : Char) : Decidable (IsPlain c) := inferInstanceAs (Decidable (_ ∧ _))

theorem lt_toNat_of_isAlphanum {c : Char} (h : c.isAlphanum = true) : 0x2F < c.toNat := by
  have hle : ∀ {d : Char}, '0'.toNat ≤ d.toNat → d.val ≤ c.val → '0'.toNat ≤ c.toNat :=
    fun hd hc => Nat.le_trans hd (UInt32.le_iff_toNat_le.mp hc)
  rcases Bool.or_eq_true_iff.mp h with halpha | hdigit
  · rcases Bool.or_eq_true_iff.mp halpha with hupper | hlower
    · exact hle (d := 'A') (by decide) (of_decide_eq_true hupper).1
    · exact hle (d := 'a') (by decide) (of_decide_eq_true (Bool.and_eq_true_iff.mp hlower).1)
  · exact (Char.isDigit_iff_toNat.mp hdigit).1

theorem isPlain_of_isFormSafe {c : Char} (h : isFormSafe c = true) : IsPlain c := by
  rcases Bool.or_eq_true_iff.mp h with halnum | hmem
  · have hlt := lt_toNat_of_isAlphanum halnum
    refine ⟨decide_eq_false fun hle => absurd hlt (by omega), ?_⟩
    rintro rfl
    exact absurd halnum (by decide)
  · have hall : ∀ c ∈ ['*', '-', '.', '_'], IsPlain c :=
      List.all_iff_forall_prop.mp (by decide)
    exact hall c (of_decide_eq_true hmem)

/-- A serialized form is a query as it stands. -/
theorem isPlain_formSerialize {pairs : List (List Char × List Char)} {c : Char}
    (hc : c ∈ formSerialize pairs) : IsPlain c := by
  rcases mem_formSerialize hc with (hsafe | rfl | rfl) | rfl | rfl
  · exact isPlain_of_isFormSafe hsafe
  all_goals decide

theorem exists_dropSlash (cs : List Char) :
    ∃ slash, (slash = [] ∨ slash = ['/']) ∧ cs = dropSlash cs ++ slash := by
  by_cases hlast : cs.getLast? = some '/'
  · obtain ⟨init, rfl⟩ := List.getLast?_eq_some_iff.mp hlast
    exact ⟨['/'], .inr rfl, by rw [dropSlash_concat]⟩
  · exact ⟨[], .inl rfl, by rw [dropSlash_of_ne hlast, List.append_nil]⟩

theorem isC0OrSpace_of_mem_dropSlash (b : Base parseAuthority) {c : Char}
    (hc : c ∈ dropSlash b.text) : isC0OrSpace c = false := by
  refine (b.plain c ?_).1
  unfold dropSlash at hc
  split at hc
  · exact (List.dropLast_sublist _).subset hc
  · exact hc

theorem followsAuthority_of_head {special : Bool} {tail : List Char}
    (h : ∀ c ∈ tail.head?, c = '/') : FollowsAuthority special tail := by
  intro c hc
  rw [h c hc]
  rfl

/-- Scheme and authority of a base are those of its front. -/
theorem Base.record_of_front (b : Base parseAuthority) {f : Front parseAuthority}
    {dir : List Char} (htext : dropSlash b.text = f.text ++ dir)
    (hhead : ∀ c ∈ dir.head?, c = '/') :
    b.record.scheme = f.scheme.map Char.toLower ∧ b.record.authority = f.value := by
  obtain ⟨slash, hslash, hsplit⟩ := exists_dropSlash b.text
  have hfollows : ∀ c ∈ (dir ++ slash).head?, c = '/' := by
    intro c hc
    cases dir with
    | nil =>
        rcases hslash with rfl | rfl
        · cases hc
        · exact (Option.some.inj hc).symm
    | cons d dir => exact hhead c hc
  have hparses := b.parses
  rw [parse, clean_eq_self fun c hc => (b.plain c hc).1, hsplit, htext, List.append_assoc,
    f.parseClean_append (followsAuthority_of_head hfollows)] at hparses
  rw [← Option.some.inj hparses]
  exact ⟨rfl, rfl⟩

theorem cutAt_eq_of_notMem {c : Char} {cs : List Char} (h : c ∉ cs) : cutAt c cs = (cs, none) := by
  have hne : ∀ d ∈ cs, decide (d ≠ c) = true := fun d hd =>
    decide_eq_true fun heq => h (heq ▸ hd)
  rw [cutAt, List.takeWhile_eq_self_iff.mpr hne, List.dropWhile_eq_nil_iff.mpr hne]

/-- The path and the query of a tail that has both and no fragment. -/
theorem Record.ofTail_query {scheme path query : List Char} {a : A} (hmark : '?' ∉ path)
    (hpath : '#' ∉ path) (hquery : '#' ∉ query) :
    Record.ofTail scheme a (path ++ '?' :: query) =
      ⟨scheme.map Char.toLower, a, parsePath (Url.isSpecial scheme) path, some query, none⟩ := by
  have hhash : '#' ∉ path ++ '?' :: query := by
    rw [List.mem_append, List.mem_cons]
    rintro (h | h | h)
    · exact hpath h
    · exact absurd h (by decide)
    · exact hquery h
  rw [Record.ofTail, cutAt_eq_of_notMem hhash]
  simp only [cutAt_append_cons hmark]

/-- **A path and a query behind a base** are what the URL has besides the base. -/
theorem Base.parse_query (b : Base parseAuthority) {cs query : List Char}
    {segs : List (List Char)} (hcs : ∀ c ∈ cs, IsPlain c ∧ c ≠ '?')
    (hquery : ∀ c ∈ query, IsPlain c)
    (hsegs : (cs.splitOnP (isSlash b.record.isSpecial)).map percentEncode = segs)
    (hdot : ∀ seg ∈ segs, isDot seg = false) :
    ∃ u, parse parseAuthority (b.join (cs ++ '?' :: query)) = some u ∧
      u.scheme = b.record.scheme ∧ u.authority = b.record.authority ∧
      u.pathname = b.path ++ pathname segs ∧ u.query = some query ∧ u.fragment = none := by
  obtain ⟨f, dir, hspecial, htext, hhead, hmark, hhash, hpath⟩ := b.exists_directory
  obtain ⟨hscheme, hauthority⟩ := b.record_of_front htext hhead
  have hjoin : b.join (cs ++ '?' :: query) = f.text ++ ((dir ++ '/' :: cs) ++ '?' :: query) := by
    rw [Base.join, htext]
    simp
  -- Nothing is trimmed, and the first `?` is the one that was put there.
  have hclean : clean (b.join (cs ++ '?' :: query)) = b.join (cs ++ '?' :: query) := by
    refine clean_eq_self fun c hc => ?_
    rw [Base.join, List.mem_append, List.mem_cons, List.mem_append, List.mem_cons] at hc
    rcases hc with h | rfl | h | rfl | h
    · exact isC0OrSpace_of_mem_dropSlash b h
    · rfl
    · exact (hcs c h).1.1
    · rfl
    · exact (hquery c h).1
  have hfollows : FollowsAuthority f.special ((dir ++ '/' :: cs) ++ '?' :: query) := by
    refine followsAuthority_of_head fun c hc => ?_
    cases dir with
    | nil => exact (Option.some.inj hc).symm
    | cons d dir => exact hhead c hc
  have hmark' : '?' ∉ dir ++ '/' :: cs := by
    rw [List.mem_append, List.mem_cons]
    rintro (h | h | h)
    · exact hmark h
    · exact absurd h (by decide)
    · exact (hcs _ h).2 rfl
  have hhash' : '#' ∉ dir ++ '/' :: cs := by
    rw [List.mem_append, List.mem_cons]
    rintro (h | h | h)
    · exact hhash h
    · exact absurd h (by decide)
    · exact (hcs _ h).1.2 rfl
  refine ⟨_, by rw [parse, hclean, hjoin, f.parseClean_append hfollows], ?_⟩
  rw [Record.ofTail_query hmark' hhash' fun h => (hquery _ h).2 rfl]
  refine ⟨hscheme.symm, hauthority.symm, ?_, rfl, rfl⟩
  show pathname (parsePath f.special (dir ++ '/' :: cs)) = _
  rw [parsePath_append, hspecial, hsegs, parseSegments_of_not_isDot hdot, pathname_append, hpath,
    hspecial]

end EmailPlatform.Url
