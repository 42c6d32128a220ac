import EmailPlatform.Core.AtomicObject
import Mathlib.Logic.Function.Basic

/-!
# EmailPlatform.Core.Independent

**Linearizability is local.** Objects that lie apart in one store, each linearizable by itself,
are linearizable together: as one atomic object that holds the state of every one of them, where
an operation on one leaves the others alone (`Independent.firstDecides`).
-/

namespace EmailPlatform.Program

variable {N S S' C R L A O I I' V V' : Type*}

/-- One operation on one of many objects. -/
def effectAt [DecidableEq N] (eff : I' → O → S' → A × S') (x : I') (o : N × O) (m : N → S') :
    A × (N → S') :=
  ((eff x o.2 (m o.1)).1, Function.update m o.1 (eff x o.2 (m o.1)).2)

/-- The environment of one of many objects. -/
def envAt [DecidableEq N] (env : V' → S' → S') (v : N × V') (m : N → S') : N → S' :=
  Function.update m v.1 (env v.2 (m v.1))

section

variable (prog : N → O → Program C R L A) (exec : I → C → S → R × S) (env : V → S → S)
  (abs : N → S → S') (eff : I' → O → S' → A × S') (env' : V' → S' → S') (Q : N → C → Prop)

/-- Objects whose programs decide with their first commands, and that lie apart. -/
structure Independent : Prop where
  object : ∀ n, FirstDecides (prog n) exec env (abs n) eff env' (Q n)
  /-- The commands for one object leave the others alone. -/
  frame : ∀ {n n' c x s r s'}, n' ≠ n → (∃ o k, (prog n o).rest = .call c k) ∨ Q n c →
    exec x c s = (r, s') → abs n' s' = abs n' s
  /-- The environment changes at most one object at a time. -/
  env_frame : ∀ {n n' v s}, abs n (env v s) ≠ abs n s → abs n' (env v s) ≠ abs n' s → n = n'

end

variable {prog : N → O → Program C R L A} {exec : I → C → S → R × S} {env : V → S → S}
  {abs : N → S → S'} {eff : I' → O → S' → A × S'} {env' : V' → S' → S'} {Q : N → C → Prop}

theorem Decided.mono {P P' : C → Prop} {a : A} {p : Program C R L A} (hd : Decided P a p)
    (himp : ∀ c, P c → P' c) : Decided P' a p := by
  induction hd with
  | done => exact .done
  | log _ ih => exact .log ih
  | call hc _ ih => exact .call (himp _ hc) ih

/-- Only one of the objects has changed. -/
theorem eq_update_of_frame [DecidableEq N] {s s' : S} {n : N} {b : S'} (hself : abs n s' = b)
    (hframe : ∀ n', n' ≠ n → abs n' s' = abs n' s) :
    (fun n => abs n s') = Function.update (fun n => abs n s) n b :=
  Function.eq_update_iff.mpr ⟨hself, hframe⟩

/-- **Independent objects are one object** whose operations act on its parts. -/
theorem Independent.firstDecides [DecidableEq N]
    (hi : Independent prog exec env abs eff env' Q) :
    FirstDecides (fun o : N × O => prog o.1 o.2) exec env (fun s n => abs n s) (effectAt eff)
      (envAt env') (fun c => ∃ n, Q n c) where
  silent {o a} hrest := by
    obtain ⟨x, hx⟩ := (hi.object o.1).silent hrest
    refine ⟨x, fun m => ?_⟩
    rw [effectAt, hx, Function.update_eq_self]
  first {o c k x s r s'} hrest hx := by
    obtain ⟨x', hd, habs⟩ := (hi.object o.1).first hrest hx
    exact ⟨x', hd.mono fun c hc => ⟨o.1, hc⟩,
      eq_update_of_frame habs fun n' hne => hi.frame hne (.inl ⟨o.2, k, hrest⟩) hx⟩
  later {c x s r s'} hc hx := by
    obtain ⟨n, hc⟩ := hc
    have hframe : ∀ n', n' ≠ n → abs n' s' = abs n' s := fun n' hne =>
      hi.frame hne (.inr hc) hx
    rcases (hi.object n).later hc hx with hsame | ⟨v, henv⟩
    · exact .inl ((eq_update_of_frame hsame hframe).trans
        (Function.update_eq_self n fun n => abs n s))
    · exact .inr ⟨(n, v), eq_update_of_frame henv hframe⟩
  env v s := by
    by_cases hex : ∃ n, abs n (env v s) ≠ abs n s
    · obtain ⟨n, hne⟩ := hex
      have hframe : ∀ n', n' ≠ n → abs n' (env v s) = abs n' s := fun n' hne' => by
        by_contra hchanged
        exact hne' (hi.env_frame hchanged hne)
      obtain ⟨v', henv⟩ := ((hi.object n).env v s).resolve_left hne
      exact .inr ⟨(n, v'), eq_update_of_frame henv hframe⟩
    · refine .inl (funext fun n => ?_)
      by_contra hne
      exact hex ⟨n, hne⟩

end EmailPlatform.Program
