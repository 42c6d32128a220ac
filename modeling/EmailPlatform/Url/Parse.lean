import EmailPlatform.Url.Path
import Mathlib.Data.List.DropRight

/-!
# EmailPlatform.Url.Parse

**The URL parser**, on absolute URLs with an authority (`scheme://authority/path`), which
is all but `file` URLs and URLs like `mailto:`. The text is cleaned, then cut from the left:
the scheme, the slashes, the authority, and from the right the fragment and the query; what
is left is the path. What an authority is, is a parameter.

The parser reads an authority up to a slash, `?`, `#` or the end, so what stands before that
point can be parsed apart from what follows (`exists_shape`, `parseClean_shape`).
-/

namespace EmailPlatform.Url

variable {A : Type}

/-! ### The parser -/

/-- A C0 control or space. -/
def isC0OrSpace (c : Char) : Bool := c.toNat ≤ 0x20

/-- An ASCII tab or newline. -/
def isTabOrNewline (c : Char) : Bool := c.toNat ∈ [0x09, 0x0A, 0x0D]

/-- The input without the controls and spaces around it, and without tabs and newlines. -/
def clean (cs : List Char) : List Char :=
  ((cs.dropWhile isC0OrSpace).rdropWhile isC0OrSpace).filter fun c => !isTabOrNewline c

/-- A character of a scheme, but for the first. -/
def isSchemeChar (c : Char) : Bool := c.isAlphanum || c ∈ ['+', '-', '.']

/-- A scheme. -/
def isScheme : List Char → Bool
  | [] => false
  | c :: cs => c.isAlpha && cs.all isSchemeChar

/-- The special schemes but for `file`. -/
def specialSchemes : List (List Char) :=
  ["http".toList, "https".toList, "ws".toList, "wss".toList, "ftp".toList]

/-- A special scheme, in any case of its letters. -/
def isSpecial (scheme : List Char) : Bool := scheme.map Char.toLower ∈ specialSchemes

/-- `file`, whose URLs are parsed differently. -/
def isFile (scheme : List Char) : Bool := scheme.map Char.toLower = "file".toList

/-- What follows the slashes before the authority: any number of them behind a special
scheme, two behind another. -/
def skipSlashes (special : Bool) (cs : List Char) : Option (List Char) :=
  if special then some (cs.dropWhile (isSlash true))
  else
    match cs with
    | '/' :: '/' :: cs => some cs
    | _ => none

/-- A character at which an authority ends. -/
def endsAuthority (special : Bool) (c : Char) : Bool := isSlash special c || c = '?' || c = '#'

/-- The text before the first `c` and the text behind it. -/
def cutAt (c : Char) (cs : List Char) : List Char × Option (List Char) :=
  (cs.takeWhile (· ≠ c), match cs.dropWhile (· ≠ c) with
    | [] => none
    | _ :: ds => some ds)

/-- A URL record; query and fragment as they were written. -/
structure Record (A : Type) where
  scheme : List Char
  authority : A
  path : List (List Char)
  query : Option (List Char)
  fragment : Option (List Char)

/-- The record of a URL whose path, query and fragment are still to be read. -/
def Record.ofTail (scheme : List Char) (a : A) (tail : List Char) : Record A :=
  let (body, fragment) := cutAt '#' tail
  let (path, query) := cutAt '?' body
  ⟨scheme.map Char.toLower, a, parsePath (isSpecial scheme) path, query, fragment⟩

/-- The scheme, which is lower-case by now, is special. -/
def Record.isSpecial (u : Record A) : Bool := u.scheme ∈ specialSchemes

/-- `url.pathname` -/
def Record.pathname (u : Record A) : List Char := Url.pathname u.path

/-- The parser on a text that is clean. -/
def parseClean (parseAuthority : Bool → List Char → Option A) (cs : List Char) :
    Option (Record A) := do
  let scheme := cs.takeWhile (· ≠ ':')
  match cs.dropWhile (· ≠ ':') with
  | [] => none
  | _ :: rest =>
    if isScheme scheme && !isFile scheme then
      let special := isSpecial scheme
      let rest ← skipSlashes special rest
      let authority := rest.takeWhile fun c => !endsAuthority special c
      if special && authority.isEmpty then none
      else
        let a ← parseAuthority special authority
        return Record.ofTail scheme a (rest.dropWhile fun c => !endsAuthority special c)
    else none

/-- The parser. -/
def parse (parseAuthority : Bool → List Char → Option A) (cs : List Char) : Option (Record A) :=
  parseClean parseAuthority (clean cs)

/-! ### What stands before the path -/

/-- The text before the path: a scheme, its slashes and an authority that parses. -/
structure Front (parseAuthority : Bool → List Char → Option A) where
  scheme : List Char
  slashes : List Char
  authority : List Char
  value : A
  isScheme : isScheme scheme = true
  not_isFile : isFile scheme = false
  isSlash : if isSpecial scheme then ∀ c ∈ slashes, isSlash true c = true
    else slashes = ['/', '/']
  not_ends : ∀ c ∈ authority, endsAuthority (isSpecial scheme) c = false
  authority_ne : isSpecial scheme = true → authority ≠ []
  parses : parseAuthority (isSpecial scheme) authority = some value

/-- It is special when its scheme is. -/
def Front.special {parseAuthority : Bool → List Char → Option A} (f : Front parseAuthority) :
    Bool := isSpecial f.scheme

/-- Its text. -/
def Front.text {parseAuthority : Bool → List Char → Option A} (f : Front parseAuthority) :
    List Char := f.scheme ++ ':' :: (f.slashes ++ f.authority)

/-- What can follow an authority. -/
def FollowsAuthority (special : Bool) (tail : List Char) : Prop :=
  ∀ c ∈ tail.head?, endsAuthority special c = true

theorem takeWhile_append_of_head {p : Char → Bool} {l m : List Char} (hl : ∀ c ∈ l, p c = true)
    (hm : ∀ c ∈ m.head?, p c = false) :
    (l ++ m).takeWhile p = l ∧ (l ++ m).dropWhile p = m := by
  rw [List.takeWhile_append_of_pos hl, List.dropWhile_append_of_pos hl]
  cases m with
  | nil => simp
  | cons c m =>
      have hc : p c = false := hm c rfl
      rw [List.takeWhile_cons_of_neg (by simp [hc]), List.dropWhile_cons_of_neg (by simp [hc])]
      exact ⟨List.append_nil l, rfl⟩

theorem isSchemeChar_of_isScheme {cs : List Char} (h : isScheme cs = true) :
    ∀ c ∈ cs, isSchemeChar c = true := by
  cases cs with
  | nil => cases h
  | cons x cs =>
      obtain ⟨hx, hcs⟩ := Bool.and_eq_true_iff.mp h
      intro c hc
      rcases List.mem_cons.mp hc with rfl | hc
      · simp [isSchemeChar, Char.isAlphanum, hx]
      · exact List.all_eq_true.mp hcs c hc

theorem colon_notMem_of_isScheme {cs : List Char} (h : isScheme cs = true) : ':' ∉ cs := by
  intro hc
  have hcolon := isSchemeChar_of_isScheme h _ hc
  revert hcolon
  decide

section Front

variable {parseAuthority : Bool → List Char → Option A}

theorem Front.skipSlashes (f : Front parseAuthority) (tail : List Char) :
    skipSlashes f.special (f.slashes ++ (f.authority ++ tail)) = some (f.authority ++ tail) := by
  have hslash := f.isSlash
  cases hspecial : isSpecial f.scheme with
  | false =>
      rw [hspecial, if_neg Bool.false_ne_true] at hslash
      rw [Front.special, hspecial, hslash]
      rfl
  | true =>
      rw [hspecial, if_pos rfl] at hslash
      obtain ⟨c, cs, hcons⟩ := List.exists_cons_of_ne_nil (f.authority_ne hspecial)
      have hends := f.not_ends c (hcons ▸ List.mem_cons_self)
      rw [hspecial] at hends
      have hc : Url.isSlash true c = false :=
        (Bool.or_eq_false_iff.mp (Bool.or_eq_false_iff.mp hends).1).1
      have hdrop := (takeWhile_append_of_head (p := Url.isSlash true) (l := f.slashes)
        (m := f.authority ++ tail) hslash (by
          rw [hcons]
          intro d heq
          cases heq
          exact hc)).2
      rw [Front.special, hspecial]
      exact congrArg some hdrop

/-- What follows the authority is read on its own. -/
theorem Front.parseClean_append (f : Front parseAuthority) {tail : List Char}
    (htail : FollowsAuthority f.special tail) :
    parseClean parseAuthority (f.text ++ tail) = some (Record.ofTail f.scheme f.value tail) := by
  have htext : f.text ++ tail = f.scheme ++ ':' :: (f.slashes ++ (f.authority ++ tail)) := by
    simp [Front.text]
  obtain ⟨htake, hdrop⟩ := takeWhile_append_of_head (p := (· ≠ ':')) (l := f.scheme)
    (m := ':' :: (f.slashes ++ (f.authority ++ tail)))
    (fun c hc => decide_eq_true fun h => colon_notMem_of_isScheme f.isScheme (h ▸ hc))
    (by
      intro c heq
      cases heq
      rfl)
  obtain ⟨htake', hdrop'⟩ := takeWhile_append_of_head
    (p := fun c => !endsAuthority f.special c) (l := f.authority) (m := tail)
    (fun c hc => by
      rw [Front.special, f.not_ends c hc]
      rfl)
    (fun c hc => by
      rw [htail c hc]
      rfl)
  have hempty : (f.special && f.authority.isEmpty) = false := by
    cases hspecial : f.special with
    | false => rfl
    | true => simpa using f.authority_ne hspecial
  unfold parseClean
  rw [htext, htake, hdrop]
  show (if (Url.isScheme f.scheme && !isFile f.scheme) = true then _ else none) = _
  rw [if_pos (by rw [f.isScheme, f.not_isFile]; rfl)]
  show (Url.skipSlashes f.special _).bind _ = _
  rw [f.skipSlashes, Option.bind_some]
  show (if (f.special && (List.takeWhile (fun c => !endsAuthority f.special c) _).isEmpty) = true
    then none else _) = _
  rw [htake', hempty, if_neg Bool.false_ne_true]
  unfold Front.special at htake' hdrop'
  show (parseAuthority (isSpecial f.scheme) _).bind _ = _
  rw [htake', hdrop', f.parses]
  rfl

theorem eq_append_of_skipSlashes {special : Bool} {cs ds : List Char}
    (h : skipSlashes special cs = some ds) :
    ∃ slashes, cs = slashes ++ ds ∧
      if special then ∀ c ∈ slashes, isSlash true c = true else slashes = ['/', '/'] := by
  unfold skipSlashes at h
  split at h
  · next hspecial =>
    obtain rfl := Option.some.inj h
    refine ⟨cs.takeWhile (isSlash true), List.takeWhile_append_dropWhile.symm, ?_⟩
    rw [if_pos hspecial]
    exact fun c hc => List.mem_takeWhile_imp hc
  · next hspecial =>
    split at h
    · obtain rfl := Option.some.inj h
      exact ⟨_, rfl, by rw [if_neg hspecial]⟩
    · cases h

theorem followsAuthority_dropWhile (special : Bool) (cs : List Char) :
    FollowsAuthority special (cs.dropWhile fun c => !endsAuthority special c) := by
  intro c hc
  have hhead := List.head?_dropWhile_not (fun c => !endsAuthority special c) cs
  rw [hc] at hhead
  simpa using hhead

/-- A text that parses begins with such a front. -/
theorem exists_front {cs : List Char} {u : Record A} (h : parseClean parseAuthority cs = some u) :
    ∃ (f : Front parseAuthority) (tail : List Char), FollowsAuthority f.special tail ∧
      cs = f.text ++ tail ∧ u = Record.ofTail f.scheme f.value tail := by
  unfold parseClean at h
  have hcs : cs.takeWhile (· ≠ ':') ++ cs.dropWhile (· ≠ ':') = cs :=
    List.takeWhile_append_dropWhile
  generalize cs.takeWhile (· ≠ ':') = scheme at h hcs
  cases hdrop : cs.dropWhile (· ≠ ':') with
  | nil =>
      rw [hdrop] at h
      cases h
  | cons colon rest =>
      have hcolon : colon = ':' := by
        have hhead := List.head?_dropWhile_not (· ≠ ':') cs
        rw [hdrop] at hhead
        simpa using hhead
      rw [hdrop] at h hcs
      dsimp only at h
      split at h
      · next hscheme =>
        obtain ⟨hscheme, hfile⟩ := Bool.and_eq_true_iff.mp hscheme
        obtain ⟨ds, hskip, h⟩ := Option.bind_eq_some_iff.mp h
        split at h
        · cases h
        · next hempty =>
          obtain ⟨a, ha, h⟩ := Option.bind_eq_some_iff.mp h
          obtain rfl := Option.some.inj h
          obtain ⟨slashes, rfl, hslashes⟩ := eq_append_of_skipSlashes hskip
          refine ⟨⟨scheme, slashes, _, a, hscheme, by simpa using hfile, hslashes, ?_, ?_, ha⟩,
            _, followsAuthority_dropWhile _ ds, ?_, rfl⟩
          · exact fun c hc => by simpa using List.mem_takeWhile_imp hc
          · intro hspecial hnil
            rw [hnil, hspecial] at hempty
            exact hempty rfl
          · have hds := List.takeWhile_append_dropWhile
              (p := fun c => !endsAuthority (isSpecial scheme) c) (l := ds)
            rw [← hcs, hcolon, Front.text, List.append_assoc, List.cons_append, List.append_assoc]
            exact congrArg (fun l => scheme ++ ':' :: (slashes ++ l)) hds.symm
      · cases h

end Front

end EmailPlatform.Url
