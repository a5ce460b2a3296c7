import Mathlib.Data.List.Basic

/-!
# Runs of state-and-exception programs

Reasoning about `EStateM` programs through their successful runs.  A
successful run of `x >>= f` is a successful run of `x` followed by one of
`f`.  A property of the state that every step keeps is kept by any program
built from the steps with `bind`, `if`, `match`, `forM` and `mapM`, and a
view of the state that no step changes is left alone by the whole program.
The two notions are stated for successful runs only: what an exception leaves
behind is the business of whoever catches it.
-/

namespace Citicash
namespace StateRun

variable {ε σ α β γ : Type}

theorem bind_eq_ok {x : EStateM ε σ α} {f : α → EStateM ε σ β}
    {s s' : σ} {b : β} : (x >>= f) s = .ok b s' ↔ ∃ a mid, x s = .ok a mid ∧
      f a mid = .ok b s' := by
  change (match x s with
    | .ok a mid => f a mid
    | .error e mid => .error e mid) = _ ↔ _
  cases x s <;> simp

theorem bind_eq_error {x : EStateM ε σ α} {f : α → EStateM ε σ β}
    {s s' : σ} {e : ε} : (x >>= f) s = .error e s' ↔
      x s = .error e s' ∨ ∃ a mid, x s = .ok a mid ∧ f a mid = .error e s' := by
  change (match x s with
    | .ok a mid => f a mid
    | .error e mid => .error e mid) = _ ↔ _
  cases x s <;> simp

/-- A run of `x >>= f`: the first step's outcome decides. -/
theorem bind_apply (x : EStateM ε σ α) (f : α → EStateM ε σ β) (s : σ) :
    (x >>= f) s =
      match x s with
      | .ok a mid => f a mid
      | .error e mid => .error e mid := rfl

/-- A successful first step hands its value and state to the rest. -/
theorem bind_of_ok {x : EStateM ε σ α} {f : α → EStateM ε σ β}
    {s s' : σ} {a : α} (run : x s = .ok a s') : (x >>= f) s = f a s' := by
  change (match x s with
    | .ok a mid => f a mid
    | .error e mid => .error e mid) = _
  rw [run]

/-- The same for a computation that only fails, with no state. -/
theorem except_bind_eq_ok {x : Except ε α} {f : α → Except ε β} {b : β} :
    x >>= f = .ok b ↔ ∃ a, x = .ok a ∧ f a = .ok b := by
  cases x with
  | error e =>
    constructor
    · intro run
      cases run
    · rintro ⟨_, failed, _⟩
      cases failed
  | ok a =>
    constructor
    · intro run
      exact ⟨a, rfl, run⟩
    · rintro ⟨_, same, run⟩
      cases same
      exact run

@[simp] theorem map_eq_ok {x : EStateM ε σ α} {f : α → β} {s s' : σ} {b : β} :
    (f <$> x) s = .ok b s' ↔ ∃ a, x s = .ok a s' ∧ f a = b := by
  change (match x s with
    | .ok a mid => EStateM.Result.ok (f a) mid
    | .error e mid => .error e mid) = _ ↔ _
  cases x s <;> simp [and_comm, eq_comm]

@[simp] theorem pure_apply (a : α) (s : σ) :
    (pure a : EStateM ε σ α) s = .ok a s := rfl

@[simp] theorem get_apply (s : σ) : (get : EStateM ε σ σ) s = .ok s s := rfl

@[simp] theorem get_bind_apply (f : σ → EStateM ε σ α) (s : σ) :
    (get >>= f) s = f s s := rfl

@[simp] theorem modify_apply (f : σ → σ) (s : σ) :
    (modify f : EStateM ε σ PUnit) s = .ok () (f s) := rfl

@[simp] theorem modifyGet_apply (f : σ → α × σ) (s : σ) :
    (modifyGet f : EStateM ε σ α) s = .ok (f s).1 (f s).2 := rfl

/-- `tryCatch` without a state to restore, as the default `Backtrackable`
instance has it. -/
theorem tryCatch_apply (x : EStateM ε σ α)
    (handler : ε → EStateM ε σ α) (s : σ) :
    (tryCatch x handler : EStateM ε σ α) s =
      match x s with
      | .ok a s' => .ok a s'
      | .error e s' => handler e s' := by
  change EStateM.tryCatch x handler s = _
  unfold EStateM.tryCatch
  cases x s <;> rfl

theorem discard_apply (x : EStateM ε σ α) (s : σ) :
    (discard x : EStateM ε σ PUnit) s =
      match x s with
      | .ok _ s' => .ok () s'
      | .error e s' => .error e s' := rfl

theorem discard_of_ok {x : EStateM ε σ α} {s s' : σ} {a : α}
    (run : x s = .ok a s') : (discard x : EStateM ε σ PUnit) s = .ok () s' := by
  rw [discard_apply, run]

theorem forM_cons_apply (a : α) (l : List α)
    (f : α → EStateM ε σ PUnit) (s : σ) :
    (a :: l).forM f s = (f a >>= fun _ => l.forM f) s := rfl

@[simp] theorem throw_apply (e : ε) (s : σ) :
    (throw e : EStateM ε σ α) s = .error e s := rfl

/-- A `mapM` whose every round returns `g a` and leaves the state returns the
list of the `g a`. -/
theorem mapM_apply_of_forall {l : List α} {f : α → EStateM ε σ β}
    (g : α → β) {s : σ} (round : ∀ a ∈ l, f a s = .ok (g a) s) :
    l.mapM f s = .ok (l.map g) s := by
  induction l with
  | nil => rfl
  | cons head tail ih =>
    rw [List.mapM_cons, bind_of_ok (round head List.mem_cons_self),
      bind_of_ok (ih fun a mem => round a (List.mem_cons_of_mem head mem))]
    rfl

/-! ## Invariants of successful runs -/

/-- Every successful run of `x` from a state satisfying `inv` ends in a state
satisfying `inv`. -/
def Keeps (inv : σ → Prop) (x : EStateM ε σ α) : Prop :=
  ∀ ⦃s a s'⦄, inv s → x s = .ok a s' → inv s'

namespace Keeps

variable {inv : σ → Prop}

theorem pure (a : α) : Keeps inv (Pure.pure a : EStateM ε σ α) := by
  intro s b s' holds run
  cases run
  exact holds

theorem get : Keeps inv (MonadState.get : EStateM ε σ σ) := by
  intro s b s' holds run
  cases run
  exact holds

theorem throw (e : ε) : Keeps inv (MonadExcept.throw e : EStateM ε σ α) := by
  intro s b s' _ run
  cases run

theorem modify {f : σ → σ} (keeps : ∀ s, inv s → inv (f s)) :
    Keeps inv (modify f : EStateM ε σ PUnit) := by
  intro s b s' holds run
  cases run
  exact keeps s holds

theorem modifyGet {f : σ → α × σ} (keeps : ∀ s, inv s → inv (f s).2) :
    Keeps inv (MonadStateOf.modifyGet f : EStateM ε σ α) := by
  intro s b s' holds run
  cases run
  exact keeps s holds

theorem bind {x : EStateM ε σ α} {f : α → EStateM ε σ β} (first : Keeps inv x)
    (rest : ∀ a, Keeps inv (f a)) : Keeps inv (x >>= f) := by
  intro s b s' holds run
  obtain ⟨a, mid, runFirst, runRest⟩ := bind_eq_ok.mp run
  exact rest a (first holds runFirst) runRest

theorem map {x : EStateM ε σ α} {f : α → β} (keeps : Keeps inv x) :
    Keeps inv (f <$> x) := by
  intro s b s' holds run
  obtain ⟨a, runX, -⟩ := map_eq_ok.mp run
  exact keeps holds runX

theorem ite {c : Prop} {_ : Decidable c} {x y : EStateM ε σ α}
    (yes : Keeps inv x) (no : Keeps inv y) :
    Keeps inv (if c then x else y) := by
  split
  · exact yes
  · exact no

/-- The invariant of a loop: each round keeps it. -/
theorem forM {l : List α} {f : α → EStateM ε σ PUnit}
    (round : ∀ a ∈ l, Keeps inv (f a)) : Keeps inv (l.forM f) := by
  induction l with
  | nil => exact pure ()
  | cons head tail ih =>
      change Keeps inv (f head >>= fun _ => tail.forM f)
      exact bind (round head List.mem_cons_self)
        fun _ => ih fun a mem => round a (List.mem_cons_of_mem head mem)

theorem mapM {l : List α} {f : α → EStateM ε σ β}
    (round : ∀ a ∈ l, Keeps inv (f a)) : Keeps inv (l.mapM f) := by
  induction l with
  | nil => exact pure []
  | cons head tail ih =>
      rw [List.mapM_cons]
      exact bind (round head List.mem_cons_self)
        fun _ => bind
          (ih fun a mem =>
            round a (List.mem_cons_of_mem head mem)) fun _ => pure _

/-- The invariant of a `for` loop: each round keeps it, whatever the loop
state. -/
theorem forIn {l : List α} {init : β} {f : α → β → EStateM ε σ (ForInStep β)}
    (round : ∀ a ∈ l, ∀ b, Keeps inv (f a b)) : Keeps inv (forIn l init f) := by
  induction l generalizing init with
  | nil => exact pure init
  | cons head tail ih =>
      rw [List.forIn_cons]
      refine bind (round head List.mem_cons_self init) fun step => ?_
      cases step with
      | done b => exact pure b
      | yield b => exact ih fun a mem => round a (List.mem_cons_of_mem head mem)

theorem optionForM {o : Option α} {f : α → EStateM ε σ PUnit}
    (round : ∀ a ∈ o, Keeps inv (f a)) : Keeps inv (o.forM f) := by
  cases o with
  | none => exact pure ()
  | some a => exact round a rfl

theorem and {other : σ → Prop} {x : EStateM ε σ α} (first : Keeps inv x)
    (second : Keeps other x) : Keeps (fun s => inv s ∧ other s) x := by
  intro s a s' holds run
  exact ⟨first holds.1 run, second holds.2 run⟩

end Keeps

/-! ## Views that a program leaves alone -/

/-- Every successful run of `x` ends with the same `view` of the state as it
started with. -/
def Preserves (view : σ → β) (x : EStateM ε σ α) : Prop :=
  ∀ c, Keeps (fun s => view s = c) x

namespace Preserves

variable {view : σ → β}

theorem eq {x : EStateM ε σ α} (preserves : Preserves view x) {s s' : σ} {a : α}
    (run : x s = .ok a s') : view s' = view s :=
  preserves (view s) rfl run

/-- A view that a finer view determines is preserved with it. -/
theorem map {x : EStateM ε σ α} (preserves : Preserves view x) (g : β → γ) :
    Preserves (fun s => g (view s)) x := by
  intro c s a s' holds run
  change g (view s') = c
  rw [preserves.eq run]
  exact holds

theorem modify {f : σ → σ} (same : ∀ s, view (f s) = view s) :
    Preserves view (modify f : EStateM ε σ PUnit) :=
  fun _ => Keeps.modify fun s holds => (same s).trans holds

theorem modifyGet {f : σ → α × σ} (same : ∀ s, view (f s).2 = view s) :
    Preserves view (MonadStateOf.modifyGet f : EStateM ε σ α) :=
  fun _ => Keeps.modifyGet fun s holds => (same s).trans holds

end Preserves

/-! ## Specifications of every run

`Keeps` and `Preserves` speak of successful runs.  A program whose
exceptions are caught or passed on with the state they reached needs a
statement about the exceptions too: `Spec pre x post onError` says what
every run ends in. -/

/-- The state a run ends in, whether it succeeded or threw. -/
def finalState : EStateM.Result ε σ α → σ
  | .ok _ s => s
  | .error _ s => s

/-- Every run of `x` from a state satisfying `pre` ends, when it succeeds,
with a value and a state satisfying `post`, and, when it throws, in a state
satisfying `onError`. -/
def Spec (pre : σ → Prop) (x : EStateM ε σ α) (post : α → σ → Prop)
    (onError : σ → Prop) : Prop :=
  ∀ ⦃s⦄, pre s →
    match x s with
    | .ok a s' => post a s'
    | .error _ s' => onError s'

namespace Spec

variable {pre : σ → Prop} {post : α → σ → Prop} {onError : σ → Prop}

theorem of_ok {x : EStateM ε σ α} (spec : Spec pre x post onError)
    {s s' : σ} {a : α} (holds : pre s) (run : x s = .ok a s') : post a s' := by
  have := spec holds
  rwa [run] at this

theorem of_error {x : EStateM ε σ α} (spec : Spec pre x post onError)
    {s s' : σ} {e : ε} (holds : pre s) (run : x s = .error e s') :
    onError s' := by
  have := spec holds
  rwa [run] at this

theorem mono {pre' : σ → Prop} {post' : α → σ → Prop} {onError' : σ → Prop}
    {x : EStateM ε σ α} (spec : Spec pre x post onError)
    (weaker : ∀ s, pre' s → pre s) (stronger : ∀ a s, post a s → post' a s)
    (strongerError : ∀ s, onError s → onError' s) :
    Spec pre' x post' onError' := by
  intro s holds
  have := spec (weaker s holds)
  cases run : x s with
  | ok a s' =>
      rw [run] at this
      exact stronger a s' this
  | error e s' =>
      rw [run] at this
      exact strongerError s' this

theorem onError_mono {onError' : σ → Prop} {x : EStateM ε σ α}
    (spec : Spec pre x post onError) (weaker : ∀ s, onError s → onError' s) :
    Spec pre x post onError' :=
  spec.mono (fun _ holds => holds) (fun _ _ holds => holds) weaker

/-- A fact that does not depend on the state can be taken out of the
precondition. -/
theorem with_fact {fact : Prop} {x : EStateM ε σ α}
    (spec : fact → Spec pre x post onError) :
    Spec (fun s => pre s ∧ fact) x post onError :=
  fun _ holds => spec holds.2 holds.1

theorem pure (a : α) (establishes : ∀ s, pre s → post a s) :
    Spec pre (Pure.pure a : EStateM ε σ α) post onError :=
  fun s holds => establishes s holds

theorem get {post : σ → σ → Prop} (establishes : ∀ s, pre s → post s s) :
    Spec pre (MonadState.get : EStateM ε σ σ) post onError :=
  fun s holds => establishes s holds

/-- `get` pins the state it returns. -/
theorem get_self : Spec pre (MonadState.get : EStateM ε σ σ)
    (fun a s => pre s ∧ s = a) onError :=
  get fun _ holds => ⟨holds, rfl⟩

theorem throw (e : ε) (establishes : ∀ s, pre s → onError s) :
    Spec pre (MonadExcept.throw e : EStateM ε σ α) post onError :=
  fun s holds => establishes s holds

theorem modify {f : σ → σ} {post : PUnit → σ → Prop}
    (establishes : ∀ s, pre s → post () (f s)) :
    Spec pre (modify f : EStateM ε σ PUnit) post onError :=
  fun s holds => establishes s holds

theorem modifyGet {f : σ → α × σ}
    (establishes : ∀ s, pre s → post (f s).1 (f s).2) :
    Spec pre (MonadStateOf.modifyGet f : EStateM ε σ α) post onError :=
  fun s holds => establishes s holds

/-- Sequencing: `mid` is what the first program leaves for the second. -/
theorem bind {mid : α → σ → Prop} {post : β → σ → Prop} {x : EStateM ε σ α}
    {f : α → EStateM ε σ β} (first : Spec pre x mid onError)
    (rest : ∀ a, Spec (mid a) (f a) post onError) :
    Spec pre (x >>= f) post onError := by
  intro s holds
  have afterFirst := first holds
  change (match (match x s with
    | .ok a mid => f a mid
    | .error e mid => .error e mid) with
    | .ok b s' => post b s'
    | .error _ s' => onError s')
  cases run : x s with
  | ok a s' =>
      rw [run] at afterFirst
      exact rest a afterFirst
  | error e s' =>
      rw [run] at afterFirst
      exact afterFirst

theorem map {post : β → σ → Prop} {x : EStateM ε σ α} {g : α → β}
    (spec : Spec pre x (fun a s => post (g a) s) onError) :
    Spec pre (g <$> x) post onError := by
  intro s holds
  have := spec holds
  change (match (match x s with
    | .ok a s' => EStateM.Result.ok (g a) s'
    | .error e s' => .error e s') with
    | .ok b s' => post b s'
    | .error _ s' => onError s')
  cases run : x s <;> rw [run] at this <;> exact this

theorem ite {c : Prop} {_ : Decidable c} {x y : EStateM ε σ α}
    (yes : c → Spec pre x post onError) (no : ¬c → Spec pre y post onError) :
    Spec pre (if c then x else y) post onError := by
  split
  · exact yes ‹c›
  · exact no ‹¬c›

/-- The invariant of a loop: each round keeps it. -/
theorem forM {inv : σ → Prop} {l : List α} {f : α → EStateM ε σ PUnit}
    (round : ∀ a ∈ l, Spec inv (f a) (fun _ => inv) onError) :
    Spec inv (l.forM f) (fun _ => inv) onError := by
  induction l with
  | nil => exact pure () fun _ holds => holds
  | cons head tail ih =>
      change Spec inv (f head >>= fun _ => tail.forM f) _ _
      exact bind (round head List.mem_cons_self)
        fun _ => ih fun a mem => round a (List.mem_cons_of_mem head mem)

/-- The invariant of a `mapM`: each round keeps it, whatever it returns. -/
theorem mapM {inv : σ → Prop} {l : List α} {f : α → EStateM ε σ β}
    (round : ∀ a ∈ l, Spec inv (f a) (fun _ => inv) onError) :
    Spec inv (l.mapM f) (fun _ => inv) onError := by
  induction l with
  | nil => exact pure [] fun _ holds => holds
  | cons head tail ih =>
      rw [List.mapM_cons]
      exact bind (round head List.mem_cons_self) fun _ =>
        bind (ih fun a mem => round a (List.mem_cons_of_mem head mem))
          fun _ => pure _ fun _ holds => holds

/-- A caught exception hands its state, described by `caught`, to the
handler. -/
theorem tryCatch {caught : σ → Prop} {x : EStateM ε σ α}
    {handler : ε → EStateM ε σ α} (body : Spec pre x post caught)
    (handles : ∀ e, Spec caught (handler e) post onError) :
    Spec pre (tryCatch x handler) post onError := by
  intro s holds
  have afterBody := body holds
  rw [tryCatch_apply]
  cases run : x s with
  | ok a s' =>
      rw [run] at afterBody
      exact afterBody
  | error e s' =>
      rw [run] at afterBody
      exact handles e afterBody

/-- A specification whose two ends agree speaks of the state a run ends in. -/
theorem finalState_holds {inv : σ → Prop} {x : EStateM ε σ α}
    (spec : Spec pre x (fun _ => inv) inv) {s : σ} (holds : pre s) :
    inv (finalState (x s)) := by
  have ended := spec holds
  revert ended
  cases x s <;> exact id

theorem discard {post : σ → Prop} {x : EStateM ε σ α}
    (spec : Spec pre x (fun _ => post) onError) :
    Spec pre (Functor.discard x : EStateM ε σ PUnit)
    (fun _ => post) onError := by
  intro s holds
  have ran := spec holds
  rw [discard_apply]
  revert ran
  cases x s <;> exact id

end Spec

/-! ## Programs that do not change the state -/

/-- Every run of `x`, successful or not, ends in the state it started
from. -/
def Inspects (x : EStateM ε σ α) : Prop :=
  ∀ s, finalState (x s) = s

namespace Inspects

theorem pure (a : α) : Inspects (Pure.pure a : EStateM ε σ α) := fun _ => rfl

theorem get : Inspects (MonadState.get : EStateM ε σ σ) := fun _ => rfl

theorem throw (e : ε) :
    Inspects (MonadExcept.throw e : EStateM ε σ α) := fun _ => rfl

theorem bind {x : EStateM ε σ α} {f : α → EStateM ε σ β} (first : Inspects x)
    (rest : ∀ a, Inspects (f a)) : Inspects (x >>= f) := by
  intro s
  have unchanged := first s
  change finalState (match x s with
    | .ok a mid => f a mid
    | .error e mid => .error e mid) = s
  cases run : x s with
  | ok a mid =>
      rw [run] at unchanged
      change mid = s at unchanged
      rw [← unchanged]
      exact rest a mid
  | error e mid =>
      rw [run] at unchanged
      exact unchanged

theorem map {x : EStateM ε σ α} {g : α → β} (inspects : Inspects x) :
    Inspects (g <$> x) := by
  intro s
  have unchanged := inspects s
  change finalState (match x s with
    | .ok a s' => EStateM.Result.ok (g a) s'
    | .error e s' => .error e s') = s
  cases run : x s <;> rw [run] at unchanged <;> exact unchanged

theorem ite {c : Prop} {_ : Decidable c} {x y : EStateM ε σ α}
    (yes : Inspects x) (no : Inspects y) : Inspects (if c then x else y) := by
  split
  · exact yes
  · exact no

theorem mapM {l : List α} {f : α → EStateM ε σ β}
    (round : ∀ a, Inspects (f a)) : Inspects (l.mapM f) := by
  induction l with
  | nil => exact pure []
  | cons head tail ih =>
      rw [List.mapM_cons]
      exact bind (round head) fun _ => bind ih fun _ => pure _

theorem eq_of_ok {x : EStateM ε σ α} (inspects : Inspects x) {s s' : σ} {a : α}
    (run : x s = .ok a s') : s' = s := by
  have unchanged := inspects s
  rw [run] at unchanged
  exact unchanged

/-- What a program that does not change the state keeps: anything. -/
theorem spec {x : EStateM ε σ α} (inspects : Inspects x) (inv : σ → Prop) :
    Spec inv x (fun _ => inv) inv := by
  intro s holds
  have unchanged := inspects s
  cases run : x s with
  | ok a s' =>
      rw [run] at unchanged
      change s' = s at unchanged
      rw [unchanged]
      exact holds
  | error e s' =>
      rw [run] at unchanged
      change s' = s at unchanged
      rw [unchanged]
      exact holds

/-- Run in a state pinned by the precondition, a program that does not
change the state keeps it pinned and returns what it returns there. -/
theorem spec_at {x : EStateM ε σ α} (inspects : Inspects x)
    {pre onError : σ → Prop} (c : σ) (fails : ∀ s, pre s → onError s) :
    Spec (fun s => pre s ∧ s = c) x
      (fun a s => (pre s ∧ s = c) ∧ x c = .ok a c) onError := by
  rintro s ⟨holds, rfl⟩
  cases run : x s with
  | ok a s' =>
      have unchanged := inspects.eq_of_ok run
      subst unchanged
      exact ⟨⟨holds, rfl⟩, rfl⟩
  | error e s' =>
      have unchanged := inspects s
      rw [run] at unchanged
      change s' = s at unchanged
      subst unchanged
      exact fails _ holds

end Inspects

/-! ## Invariants of every run -/

/-- Every run of `x`, successful or not, from a state satisfying `inv` ends
in one. -/
def Maintains (inv : σ → Prop) (x : EStateM ε σ α) : Prop :=
  Spec inv x (fun _ => inv) inv

namespace Maintains

variable {inv : σ → Prop}

theorem pure (a : α) : Maintains inv (Pure.pure a : EStateM ε σ α) :=
  Spec.pure a fun _ holds => holds

theorem bind {x : EStateM ε σ α} {f : α → EStateM ε σ β}
    (first : Maintains inv x) (rest : ∀ a, Maintains inv (f a)) :
    Maintains inv (x >>= f) :=
  Spec.bind first rest

theorem map {x : EStateM ε σ α} {g : α → β} (maintains : Maintains inv x) :
    Maintains inv (g <$> x) :=
  Spec.map maintains

theorem ite {c : Prop} {_ : Decidable c} {x y : EStateM ε σ α}
    (yes : Maintains inv x) (no : Maintains inv y) :
    Maintains inv (if c then x else y) :=
  Spec.ite (fun _ => yes) fun _ => no

theorem forM {l : List α} {f : α → EStateM ε σ PUnit}
    (round : ∀ a ∈ l, Maintains inv (f a)) : Maintains inv (l.forM f) :=
  Spec.forM round

theorem modify {f : σ → σ} (keeps : ∀ s, inv s → inv (f s)) :
    Maintains inv (modify f : EStateM ε σ PUnit) :=
  Spec.modify keeps

theorem modifyGet {f : σ → α × σ} (keeps : ∀ s, inv s → inv (f s).2) :
    Maintains inv (MonadStateOf.modifyGet f : EStateM ε σ α) :=
  Spec.modifyGet keeps

theorem of_inspects {x : EStateM ε σ α} (inspects : Inspects x) :
    Maintains inv x :=
  inspects.spec inv

theorem throw (e : ε) : Maintains inv (MonadExcept.throw e : EStateM ε σ α) :=
  Spec.throw e fun _ holds => holds

theorem mapM {l : List α} {f : α → EStateM ε σ β}
    (round : ∀ a ∈ l, Maintains inv (f a)) : Maintains inv (l.mapM f) :=
  Spec.mapM round

/-- The invariant of a `for` loop: each round keeps it, whatever the loop
state. -/
theorem forIn {l : List α} {init : β} {f : α → β → EStateM ε σ (ForInStep β)}
    (round : ∀ a ∈ l, ∀ b, Maintains inv (f a b)) :
    Maintains inv (forIn l init f) := by
  induction l generalizing init with
  | nil => exact pure init
  | cons head tail ih =>
      rw [List.forIn_cons]
      refine bind (round head List.mem_cons_self init) fun step => ?_
      cases step with
      | done b => exact pure b
      | yield b => exact ih fun a mem => round a (List.mem_cons_of_mem head mem)

theorem optionForM {o : Option α} {f : α → EStateM ε σ PUnit}
    (round : ∀ a ∈ o, Maintains inv (f a)) : Maintains inv (o.forM f) := by
  cases o with
  | none => exact pure ()
  | some a => exact round a rfl

/-- What holds after every run also holds after every successful one. -/
theorem keeps {x : EStateM ε σ α} (maintains : Maintains inv x) : Keeps inv x :=
  fun _ _ _ holds run => maintains.of_ok holds run

end Maintains

/-! ## Views that no run changes -/

/-- Every run of `x`, successful or not, ends with the same `view` of the
state as it started with: the frame condition of a step that writes only
what `view` does not read. -/
def Frames (view : σ → β) (x : EStateM ε σ α) : Prop :=
  ∀ c, Maintains (fun s => view s = c) x

namespace Frames

variable {ν : Type} {view : σ → ν}

theorem pure (a : α) : Frames view (Pure.pure a : EStateM ε σ α) :=
  fun _ => Maintains.pure a

theorem throw (e : ε) : Frames view (MonadExcept.throw e : EStateM ε σ α) :=
  fun _ => Maintains.throw e

theorem of_inspects {x : EStateM ε σ α} (inspects : Inspects x) :
    Frames view x :=
  fun _ => Maintains.of_inspects inspects

theorem bind {x : EStateM ε σ α} {f : α → EStateM ε σ β} (first : Frames view x)
    (rest : ∀ a, Frames view (f a)) : Frames view (x >>= f) :=
  fun c => Maintains.bind (first c) fun a => rest a c

theorem map {x : EStateM ε σ α} {g : α → β} (frames : Frames view x) :
    Frames view (g <$> x) :=
  fun c => (frames c).map

theorem ite {c : Prop} {_ : Decidable c} {x y : EStateM ε σ α}
    (yes : Frames view x) (no : Frames view y) :
    Frames view (if c then x else y) :=
  fun c => Maintains.ite (yes c) (no c)

theorem forM {l : List α} {f : α → EStateM ε σ PUnit}
    (round : ∀ a ∈ l, Frames view (f a)) : Frames view (l.forM f) :=
  fun c => Maintains.forM fun a mem => round a mem c

theorem mapM {l : List α} {f : α → EStateM ε σ β}
    (round : ∀ a ∈ l, Frames view (f a)) : Frames view (l.mapM f) :=
  fun c => Maintains.mapM fun a mem => round a mem c

theorem forIn {l : List α} {init : β} {f : α → β → EStateM ε σ (ForInStep β)}
    (round : ∀ a ∈ l, ∀ b, Frames view (f a b)) :
    Frames view (forIn l init f) :=
  fun c => Maintains.forIn fun a mem b => round a mem b c

theorem optionForM {o : Option α} {f : α → EStateM ε σ PUnit}
    (round : ∀ a ∈ o, Frames view (f a)) : Frames view (o.forM f) :=
  fun c => Maintains.optionForM fun a mem => round a mem c

theorem modify {f : σ → σ} (same : ∀ s, view (f s) = view s) :
    Frames view (modify f : EStateM ε σ PUnit) :=
  fun _ => Maintains.modify fun s holds => (same s).trans holds

theorem modifyGet {f : σ → α × σ} (same : ∀ s, view (f s).2 = view s) :
    Frames view (MonadStateOf.modifyGet f : EStateM ε σ α) :=
  fun _ => Maintains.modifyGet fun s holds => (same s).trans holds

/-- The view after any run, successful or not. -/
theorem final {x : EStateM ε σ α} (frames : Frames view x) (s : σ) :
    view (finalState (x s)) = view s := by
  have outcome := frames (view s) (s := s) rfl
  cases run : x s with
  | ok a s' =>
      rw [run] at outcome
      exact outcome
  | error e s' =>
      rw [run] at outcome
      exact outcome

theorem preserves {x : EStateM ε σ α} (frames : Frames view x) :
    Preserves view x :=
  fun c => (frames c).keeps

/-- A view that every run's final state shows unchanged is left alone. -/
theorem of_final {x : EStateM ε σ α}
    (same : ∀ s, view (finalState (x s)) = view s) : Frames view x := by
  intro c s holds
  have outcome := same s
  cases run : x s with
  | ok a s' =>
      rw [run] at outcome
      exact outcome.trans holds
  | error e s' =>
      rw [run] at outcome
      exact outcome.trans holds

/-- A view that a finer view determines is left with it. -/
theorem comp {x : EStateM ε σ α} (frames : Frames view x) (g : ν → γ) :
    Frames (fun s => g (view s)) x :=
  of_final fun s => congrArg g (frames.final s)

/-- Two views left alone are left alone together. -/
theorem pair {δ : Type} {other : σ → δ} {x : EStateM ε σ α}
    (first : Frames view x) (second : Frames other x) :
    Frames (fun s => (view s, other s)) x :=
  of_final fun s => by rw [first.final s, second.final s]

end Frames

end StateRun
end Citicash
