import EmailPlatform.Core.List
import EmailPlatform.Js.PosixPath
import Mathlib.Data.List.Induction

/-!
# EmailPlatform.Grpc.MonorepoRoot

**Where proto files are found.** `findMonorepoRoot` goes up from a directory until it finds
`pnpm-workspace.yaml`. It always returns, and it returns the nearest directory with the
marker, but for one case: `/` is where the loop ends, and it is left without a look
(`findsNearest_iff`).

The file system is any predicate on paths. The loop runs with fuel; `Returns` says that
some fuel is enough.
-/

namespace EmailPlatform.Grpc

open PosixPath

/-- The file that marks the root. -/
def marker : List Char := "pnpm-workspace.yaml".toList

/-- The `while` loop of `findMonorepoRoot`, for at most `fuel` turns. -/
def findMonorepoRoot (existsSync : List Char → Bool) (startDir : List Char) :
    Nat → List Char → Option (List Char)
  | 0, _ => none
  | fuel + 1, dir =>
    if dir = ['/'] then some startDir
    else if existsSync (join [dir, marker]) then some dir
    else findMonorepoRoot existsSync startDir fuel (join [dir, dotDot])

/-- `findMonorepoRoot(startDir)` returns `root`. -/
def Returns (existsSync : List Char → Bool) (startDir root : List Char) : Prop :=
  ∃ fuel, findMonorepoRoot existsSync startDir fuel startDir = some root

/-- `resolveProtoPath`, run in `cwd`. -/
def resolveProtoPath (existsSync : List Char → Bool) (cwd : List Char) (fuel : Nat)
    (protoName protoDir : List Char) : Option (List Char) :=
  let file := protoName ++ ".proto".toList
  if isAbsolute protoDir then some (join [protoDir, file])
  else (findMonorepoRoot existsSync cwd fuel cwd).map fun root => join [root, protoDir, file]

theorem proper_marker : Proper marker :=
  ⟨by decide, by decide, by decide, by decide⟩

/-! ### The nearest directory -/

/-- The directory with these segments has the marker. -/
def HasMarker (existsSync : List Char → Bool) (segments : List (List Char)) : Prop :=
  existsSync ('/' :: ['/'].intercalate (segments ++ [marker])) = true

instance (existsSync : List Char → Bool) (segments : List (List Char)) :
    Decidable (HasMarker existsSync segments) := inferInstanceAs (Decidable (_ = true))

/-- The root to be found: the nearest ancestor with the marker, the directory and `/`
included, and the directory itself if none has it. -/
structure IsNearestRoot (existsSync : List Char → Bool) (start root : AbsoluteDir) : Prop where
  nearest : HasMarker existsSync root.segments →
    IsLongestPrefix (HasMarker existsSync) start.segments root.segments
  none : ¬ HasMarker existsSync root.segments →
    root = start ∧ ∀ q, q <+: start.segments → ¬ HasMarker existsSync q

/-- The search ends and returns the root to be found. -/
def FindsNearest (existsSync : List Char → Bool) (start : AbsoluteDir) : Prop :=
  ∃ root : AbsoluteDir, Returns existsSync start.path root.path ∧
    IsNearestRoot existsSync start root

/-! ### The loop -/

section

variable {existsSync : List Char → Bool} {startDir : List Char}

/-- More fuel changes nothing once the loop has ended. -/
theorem findMonorepoRoot_mono {fuel : Nat} : ∀ {dir root : List Char},
    findMonorepoRoot existsSync startDir fuel dir = some root →
      ∀ more, findMonorepoRoot existsSync startDir (fuel + more) dir = some root := by
  induction fuel with
  | zero =>
      intro dir root h
      cases h
  | succ fuel ih =>
      intro dir root h more
      rw [Nat.add_right_comm]
      unfold findMonorepoRoot at h ⊢
      split
      · next hroot => rwa [if_pos hroot] at h
      · next hroot =>
        rw [if_neg hroot] at h
        split
        · next hmarker => rwa [if_pos hmarker] at h
        · next hmarker =>
          rw [if_neg hmarker] at h
          exact ih h more

theorem Returns.unique {root root' : List Char} (h : Returns existsSync startDir root)
    (h' : Returns existsSync startDir root') : root = root' := by
  obtain ⟨n, hn⟩ := h
  obtain ⟨m, hm⟩ := h'
  have hn' := findMonorepoRoot_mono hn m
  rw [Nat.add_comm, findMonorepoRoot_mono hm n] at hn'
  exact (Option.some.inj hn').symm

theorem existsSync_join_marker (existsSync : List Char → Bool) (d : AbsoluteDir) :
    existsSync (join [d.path, marker]) = true ↔ HasMarker existsSync d.segments := by
  rw [join_child d proper_marker]
  rfl

/-- One turn, below the root. -/
theorem findMonorepoRoot_succ {d : AbsoluteDir} (hne : d.segments ≠ []) (fuel : Nat) :
    findMonorepoRoot existsSync startDir (fuel + 1) d.path =
      if existsSync (join [d.path, marker]) = true then some d.path
      else findMonorepoRoot existsSync startDir fuel d.parent.path := by
  have hpath : d.path ≠ ['/'] := by
    intro h
    have hsegs := d.normalizeString_path
    rw [h] at hsegs
    exact hne hsegs.symm
  rw [findMonorepoRoot, if_neg hpath, join_dotDot]

/-- One turn, one segment below another directory. -/
theorem findMonorepoRoot_concat {segs : List (List Char)} {seg : List Char}
    (h : ∀ s ∈ segs ++ [seg], Proper s) :
    findMonorepoRoot existsSync startDir ((segs ++ [seg]).length + 1)
        (AbsoluteDir.path ⟨segs ++ [seg], h⟩) =
      if existsSync (join [AbsoluteDir.path ⟨segs ++ [seg], h⟩, marker]) = true then
        some (AbsoluteDir.path ⟨segs ++ [seg], h⟩)
      else findMonorepoRoot existsSync startDir (segs.length + 1)
        (AbsoluteDir.path ⟨segs, fun s hs => h s (List.mem_append_left _ hs)⟩) := by
  have hparent : (AbsoluteDir.mk (segs ++ [seg]) h).parent.path =
      AbsoluteDir.path ⟨segs, fun s hs => h s (List.mem_append_left _ hs)⟩ := by
    simp [AbsoluteDir.path]
  rw [findMonorepoRoot_succ (by simp), List.length_append, hparent]
  rfl

/-- Where a directory below the root has the marker, the loop returns the nearest one. -/
theorem findMonorepoRoot_of_marker (segments : List (List Char)) :
    ∀ h : ∀ seg ∈ segments, Proper seg,
      (∃ q, q ≠ [] ∧ q <+: segments ∧ HasMarker existsSync q) →
      ∃ root : AbsoluteDir, IsLongestPrefix (HasMarker existsSync) segments root.segments ∧
        findMonorepoRoot existsSync startDir (segments.length + 1)
          (AbsoluteDir.path ⟨segments, h⟩) = some root.path := by
  induction segments using List.reverseRecOn with
  | nil =>
      intro _ ⟨q, hne, hq, _⟩
      exact absurd (List.prefix_nil.mp hq) hne
  | append_singleton segs seg ih =>
      intro h ⟨q, hne, hq, hmarker⟩
      rw [findMonorepoRoot_concat]
      have hhere := existsSync_join_marker existsSync ⟨segs ++ [seg], h⟩
      split
      · next hjoin => exact ⟨⟨segs ++ [seg], h⟩, .refl (hhere.mp hjoin), rfl⟩
      · next hjoin =>
        rw [hhere] at hjoin
        -- the directory with the marker is not this one
        have hq' : q <+: segs :=
          (List.prefix_concat_iff.mp hq).resolve_left fun heq => hjoin (heq ▸ hmarker)
        obtain ⟨root, hlongest, hroot⟩ := ih _ ⟨q, hne, hq', hmarker⟩
        exact ⟨root, hlongest.concat hjoin, hroot⟩

/-- Where none has it, the loop returns the directory it started from. -/
theorem findMonorepoRoot_of_no_marker (segments : List (List Char)) :
    ∀ h : ∀ seg ∈ segments, Proper seg,
      (∀ q, q ≠ [] → q <+: segments → ¬ HasMarker existsSync q) →
      findMonorepoRoot existsSync startDir (segments.length + 1)
        (AbsoluteDir.path ⟨segments, h⟩) = some startDir := by
  induction segments using List.reverseRecOn with
  | nil => exact fun _ _ => rfl
  | append_singleton segs seg ih =>
      intro h hnone
      have hhere := existsSync_join_marker existsSync ⟨segs ++ [seg], h⟩
      rw [findMonorepoRoot_concat, if_neg (mt hhere.mp (hnone _ (by simp) List.prefix_rfl))]
      exact ih _ fun q hne hq => hnone q hne (hq.trans (List.prefix_append _ _))

end

/-! ### The law of the search -/

/-- The search finds the nearest root for every file system, unless the only marker above
the directory is that of `/`. -/
theorem findsNearest_iff (existsSync : List Char → Bool) (start : AbsoluteDir) :
    FindsNearest existsSync start ↔
      start.segments = [] ∨ ¬ HasMarker existsSync [] ∨
        ∃ q, q ≠ [] ∧ q <+: start.segments ∧ HasMarker existsSync q := by
  have hmarked := @findMonorepoRoot_of_marker existsSync start.path start.segments start.proper
  have hunmarked :=
    @findMonorepoRoot_of_no_marker existsSync start.path start.segments start.proper
  constructor
  · intro ⟨root, hreturns, hroot⟩
    by_contra! hcontra
    obtain ⟨hne, htop, hnone⟩ := hcontra
    obtain hpath := hreturns.unique ⟨_, hunmarked hnone⟩
    have hsegs : root.segments = start.segments := by
      rw [← root.normalizeString_path, hpath, start.normalizeString_path]
    have habsent : ¬ HasMarker existsSync root.segments :=
      hsegs ▸ hnone _ hne List.prefix_rfl
    exact (hroot.none habsent).2 [] List.nil_prefix htop
  · intro hcond
    by_cases hbelow : ∃ q, q ≠ [] ∧ q <+: start.segments ∧ HasMarker existsSync q
    · obtain ⟨root, hlongest, hroot⟩ := hmarked hbelow
      exact ⟨root, ⟨_, hroot⟩, fun _ => hlongest, fun h => absurd hlongest.holds h⟩
    · have hnone : ∀ q, q ≠ [] → q <+: start.segments → ¬ HasMarker existsSync q :=
        fun q hne hq hq' => hbelow ⟨q, hne, hq, hq'⟩
      refine ⟨start, ⟨_, hunmarked hnone⟩, fun h => .refl h, fun h => ⟨rfl, fun q hq hq' => ?_⟩⟩
      by_cases hq0 : q = []
      · subst hq0
        rcases hcond with hroot | htop | hmarker
        · exact h (hroot ▸ hq')
        · exact htop hq'
        · exact hbelow hmarker
      · exact hnone q hq0 hq hq'

/-- The loop ends after one turn for each directory up to `/`. -/
theorem exists_findMonorepoRoot (existsSync : List Char → Bool) (start : AbsoluteDir) :
    ∃ root, findMonorepoRoot existsSync start.path (start.segments.length + 1) start.path =
      some root := by
  by_cases hbelow : ∃ q, q ≠ [] ∧ q <+: start.segments ∧ HasMarker existsSync q
  · obtain ⟨root, -, hroot⟩ := findMonorepoRoot_of_marker start.segments start.proper hbelow
    exact ⟨_, hroot⟩
  · exact ⟨_, findMonorepoRoot_of_no_marker start.segments start.proper
      fun q hne hq hq' => hbelow ⟨q, hne, hq, hq'⟩⟩

/-- Every proto file is resolved to some path. -/
theorem exists_resolveProtoPath (existsSync : List Char → Bool) (cwd : AbsoluteDir)
    (protoName protoDir : List Char) :
    ∃ fuel path, resolveProtoPath existsSync cwd.path fuel protoName protoDir = some path := by
  obtain ⟨root, hroot⟩ := exists_findMonorepoRoot existsSync cwd
  refine ⟨cwd.segments.length + 1, ?_⟩
  rw [← Option.isSome_iff_exists, resolveProtoPath, hroot]
  split
  · rfl
  · rfl

/-- A repository at `/`, seen from `/app`. -/
def app : AbsoluteDir where
  segments := ["app".toList]
  proper := by
    intro seg hseg
    rw [List.mem_singleton.mp hseg]
    exact ⟨by decide, by decide, by decide, by decide⟩

/-- Only `/pnpm-workspace.yaml` exists. -/
def rootOnly (path : List Char) : Bool := path = "/pnpm-workspace.yaml".toList

/-- The search returns `/app` where `/` has the marker. -/
theorem not_findsNearest_rootOnly :
    Returns rootOnly app.path app.path ∧ HasMarker rootOnly [] ∧ ¬ FindsNearest rootOnly app := by
  have happ : Returns rootOnly app.path app.path := ⟨2, by decide⟩
  have htop : HasMarker rootOnly [] := by decide
  refine ⟨happ, htop, fun ⟨root, hreturns, hroot⟩ => ?_⟩
  have hsegs : root.segments = app.segments := by
    rw [← root.normalizeString_path, hreturns.unique happ, app.normalizeString_path]
  have habsent : ¬ HasMarker rootOnly root.segments := by
    rw [hsegs]
    decide
  exact (hroot.none habsent).2 [] List.nil_prefix htop

end EmailPlatform.Grpc
