import EmailPlatform.Js.JsonRoundTrip

/-!
# EmailPlatform.Js.JsonData

**What `JSON.parse` returns** is data: `null`, flags, numbers, strings, and arrays and objects of
these with distinct keys. The machine holds nothing else on its way (`step_data`). Data has a text
again, and stands for itself but for the numbers that a numeral can overflow to.
-/

namespace EmailPlatform.JSON

/-- A value that `JSON.parse` can return. -/
inductive Data : Value → Prop
  | null : Data .null
  | bool (b : Bool) : Data (.bool b)
  | num (n : NumberValue) : Data (.num n)
  | str (s : JsString) : Data (.str s)
  | array {elements : List Value} : (∀ v ∈ elements, Data v) → Data (.array elements)
  | object {members : List (JsString × Value)} :
      (members.map Prod.fst).Nodup → (∀ m ∈ members, Data m.2) → Data (.object members)

/-- Members of an object that is data. -/
structure DataMembers (members : List (JsString × Value)) : Prop where
  nodup : (members.map Prod.fst).Nodup
  data : ∀ m ∈ members, Data m.2

theorem DataMembers.nil : DataMembers [] := ⟨List.nodup_nil, by simp⟩

theorem DataMembers.createDataProperty {members : List (JsString × Value)}
    (h : DataMembers members) (key : JsString) {v : Value} (hv : Data v) :
    DataMembers (createDataProperty members key v) := by
  unfold JSON.createDataProperty
  split
  · refine ⟨?_, ?_⟩
    · have hkeys : (members.map fun m => if m.1 = key then (key, v) else m).map Prod.fst =
          members.map Prod.fst := by
        rw [List.map_map]
        refine List.map_congr_left fun m _ => ?_
        by_cases hm : m.1 = key <;> simp [hm]
      rw [hkeys]
      exact h.nodup
    · intro m hm
      obtain ⟨m₀, hm₀, rfl⟩ := List.mem_map.mp hm
      split
      · exact hv
      · exact h.data m₀ hm₀
  · next hnew =>
    refine ⟨?_, ?_⟩
    · rw [List.map_append, List.nodup_append]
      refine ⟨h.nodup, by simp, ?_⟩
      intro k hk k' hk' heq
      obtain ⟨m, hm, rfl⟩ := List.mem_map.mp hk
      refine hnew (List.any_eq_true.mpr ⟨m, hm, decide_eq_true ?_⟩)
      exact heq.trans (List.mem_singleton.mp hk')
    · intro m hm
      rcases List.mem_append.mp hm with hm | hm
      · exact h.data m hm
      · rw [List.mem_singleton.mp hm]
        exact hv

/-! ### The machine holds data -/

/-- What has been read of an array or an object is data. -/
def Frame.HoldsData : Frame → Prop
  | .array elements => ∀ v ∈ elements, Data v
  | .object members _ => DataMembers members

/-- What a string will be put into holds data. -/
def Holder.HoldsData : Holder → Prop
  | .value => True
  | .key members => DataMembers members

/-- What the mode holds is data. -/
def Mode.HoldsData : Mode → Prop
  | .value _ | .number _ => True
  | .key _ members | .colon members _ => DataMembers members
  | .done v | .word _ v => Data v
  | .string holder _ | .escape holder _ | .unicode holder _ _ _ => holder.HoldsData

/-- All that has been read is data. -/
def HoldsData (s : State) : Prop := s.1.HoldsData ∧ ∀ f ∈ s.2, f.HoldsData

theorem startValue_data {stack : List Frame} {c : Char} {s : State}
    (hstack : ∀ f ∈ stack, f.HoldsData) (h : startValue stack c = some s) : HoldsData s := by
  unfold startValue at h
  split at h
  · cases h
    exact ⟨.nil, hstack⟩
  split at h
  · cases h
    have hempty : (Frame.array []).HoldsData := fun v hv => absurd hv List.not_mem_nil
    exact ⟨trivial, List.forall_mem_cons.mpr ⟨hempty, hstack⟩⟩
  split at h
  · cases h
    exact ⟨trivial, hstack⟩
  split at h
  · cases h
    exact ⟨.null, hstack⟩
  split at h
  · cases h
    exact ⟨.bool true, hstack⟩
  split at h
  · cases h
    exact ⟨.bool false, hstack⟩
  split at h
  · cases h
    exact ⟨trivial, hstack⟩
  · obtain ⟨n, -, rfl⟩ := Option.map_eq_some_iff.mp h
    exact ⟨trivial, hstack⟩

theorem afterValue_data {v : Value} {stack : List Frame} {c : Char} {s : State} (hv : Data v)
    (hstack : ∀ f ∈ stack, f.HoldsData) (h : afterValue v stack c = some s) : HoldsData s := by
  unfold afterValue at h
  split at h
  · cases h
    exact ⟨hv, hstack⟩
  · cases stack with
    | nil => cases h
    | cons f stack =>
        obtain ⟨hf, hrest⟩ := List.forall_mem_cons.mp hstack
        cases f with
        | array elements =>
            have hall : ∀ w ∈ elements ++ [v], Data w := by
              intro w hw
              rcases List.mem_append.mp hw with hw | hw
              · exact hf w hw
              · rw [List.mem_singleton.mp hw]
                exact hv
            dsimp only at h
            split at h
            · cases h
              exact ⟨trivial, List.forall_mem_cons.mpr ⟨hall, hrest⟩⟩
            · split at h
              · cases h
                exact ⟨.array hall, hrest⟩
              · cases h
        | object members key =>
            have hmembers := DataMembers.createDataProperty hf key hv
            dsimp only at h
            split at h
            · cases h
              exact ⟨hmembers, hrest⟩
            · split at h
              · cases h
                exact ⟨.object hmembers.nodup hmembers.data, hrest⟩
              · cases h

theorem closeString_data {holder : Holder} (h : holder.HoldsData) (units : JsString) :
    (closeString units holder).HoldsData := by
  cases holder with
  | value => exact .str units
  | key members => exact h

/-- **Step.** A machine that holds data goes on to hold data. -/
theorem step_data {s s' : State} {c : Char} (hs : HoldsData s) (h : step s c = some s') :
    HoldsData s' := by
  obtain ⟨mode, stack⟩ := s
  obtain ⟨hmode, hstack⟩ := hs
  cases mode with
  -- `]` closes an array whose elements are data already
  | value closable =>
      simp only [step] at h
      split at h
      · cases h
        exact ⟨trivial, hstack⟩
      · split at h
        · cases stack with
          | nil => cases h
          | cons f stack =>
              cases f with
              | object => cases h
              | array elements =>
                  cases h
                  obtain ⟨helements, hrest⟩ := List.forall_mem_cons.mp hstack
                  exact ⟨.array helements, hrest⟩
        · exact startValue_data hstack h
  -- `}` closes an object whose members are data already
  | key closable members =>
      simp only [step] at h
      split at h
      · cases h
        exact ⟨hmode, hstack⟩
      · split at h
        · cases h
          exact ⟨hmode, hstack⟩
        · split at h
          · cases h
            exact ⟨.object hmode.nodup hmode.data, hstack⟩
          · cases h
  | colon members key =>
      simp only [step] at h
      split at h
      · cases h
        exact ⟨hmode, hstack⟩
      · split at h
        · cases h
          exact ⟨trivial, List.forall_mem_cons.mpr ⟨hmode, hstack⟩⟩
        · cases h
  | done v => exact afterValue_data hmode hstack h
  | word rest v =>
      cases rest with
      | nil => cases h
      | cons d rest =>
          simp only [step] at h
          split at h
          · cases h
            split <;> exact ⟨hmode, hstack⟩
          · cases h
  -- the number ends at the first character that is not of it, which is read once more
  | number n =>
      simp only [step] at h
      split at h
      · cases h
        exact ⟨trivial, hstack⟩
      · obtain ⟨q, -, h⟩ := Option.bind_eq_some_iff.mp h
        exact afterValue_data (.num _) hstack h
  -- only the closing quote makes a value
  | string holder units =>
      simp only [step] at h
      split at h
      · cases h
        exact ⟨closeString_data hmode units, hstack⟩
      · split at h
        · cases h
          exact ⟨hmode, hstack⟩
        · split at h
          · cases h
          · cases h
            exact ⟨hmode, hstack⟩
  | escape holder units =>
      simp only [step] at h
      split at h
      · cases h
        exact ⟨hmode, hstack⟩
      · obtain ⟨u, -, rfl⟩ := Option.map_eq_some_iff.mp h
        exact ⟨hmode, hstack⟩
  | unicode holder units digits code =>
      simp only [step] at h
      obtain ⟨d, -, rfl⟩ := Option.map_eq_some_iff.mp h
      split <;> exact ⟨hmode, hstack⟩

/-- **Run.** So does a whole text. -/
theorem run_data {s s' : State} {text : List Char} (hs : HoldsData s)
    (h : run s text = some s') : HoldsData s' := by
  induction text generalizing s with
  | nil =>
      obtain rfl := Option.some.inj h
      exact hs
  | cons c text ih =>
      rw [run_cons] at h
      obtain ⟨s₁, hstep, h⟩ := Option.bind_eq_some_iff.mp h
      exact ih (step_data hs hstep) h

theorem parse_data {text : List Char} {v : Value} (h : parse text = .ok v) : Data v := by
  unfold parse at h
  split at h
  · next w hfinish =>
    cases h
    obtain ⟨s, hrun, hfinish⟩ := Option.bind_eq_some_iff.mp hfinish
    have hstart : HoldsData (.value false, []) :=
      ⟨trivial, fun f hf => absurd hf List.not_mem_nil⟩
    have hs := run_data hstart hrun
    unfold finish at hfinish
    split at hfinish
    · cases hfinish
      exact hs.1
    · obtain ⟨q, -, rfl⟩ := Option.map_eq_some_iff.mp hfinish
      exact .num _
    · cases hfinish
  · cases h

/-! ### Data has a text -/

theorem normalElements_eq {elements : List Value}
    (h : ∀ v ∈ elements, ∃ form, normalForm v false = .ok (some form)) :
    ∃ forms, normalElements elements = .ok forms := by
  induction elements with
  | nil => exact ⟨[], rfl⟩
  | cons v elements ih =>
      obtain ⟨form, hform⟩ := h v List.mem_cons_self
      obtain ⟨forms, hforms⟩ := ih fun w hw => h w (List.mem_cons_of_mem _ hw)
      exact ⟨form :: forms, by rw [normalElements, hform, hforms]; rfl⟩

theorem normalMembers_eq {members : List (JsString × Value)}
    (h : ∀ m ∈ members, ∃ form, normalForm m.2 false = .ok (some form)) :
    ∃ forms, normalMembers members = .ok forms := by
  induction members with
  | nil => exact ⟨[], rfl⟩
  | cons m members ih =>
      obtain ⟨form, hform⟩ := h m List.mem_cons_self
      obtain ⟨forms, hforms⟩ := ih fun w hw => h w (List.mem_cons_of_mem _ hw)
      exact ⟨(m.1, form) :: forms, by rw [normalMembers, hform, hforms]; rfl⟩

/-- Data has a normal form. -/
theorem Data.normalForm_eq {v : Value} (h : Data v) :
    ∃ form, normalForm v false = .ok (some form) := by
  induction h with
  | null | bool | num | str => exact ⟨_, rfl⟩
  | @array elements _ ih =>
      obtain ⟨forms, hforms⟩ := normalElements_eq ih
      exact ⟨.array forms, by rw [normalForm, hforms]; rfl⟩
  | @object members _ _ ih =>
      obtain ⟨forms, hforms⟩ := normalMembers_eq ih
      exact ⟨.ofMembers forms, by rw [normalForm, hforms]; rfl⟩

variable {format : NumberFormat}

/-- What has a normal form has a text, which is read as this form. -/
theorem exists_text {v form : Value} (h : normalForm v false = .ok (some form)) :
    ∃ text, stringify format v = .ok (some text) ∧ parse text = .ok form := by
  have hagree : Agree (Option.Rel Reads) (stringify format v) (normalForm v false) :=
    agree_serialize v false
  rw [h] at hagree
  generalize hx : stringify format v = x at hagree
  cases hagree with
  | ok hrel =>
      cases hrel with
      | some hreads => exact ⟨_, rfl, hreads.parse⟩

end EmailPlatform.JSON
