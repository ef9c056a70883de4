import Mathlib.Data.List.Forall2
import Mathlib.Data.List.Perm.Basic
import WireSchema.Encoding.Output

/-!
# What a run that succeeded has done

Compiling is a computation in `Except`, encoding one in `Encode`.  A success of a
sequence is taken apart into the successes of its parts here, once, so that no later
proof unfolds a bind.

## Main results

* `bind_eq_ok`, `bind_eq_error`, `map_eq_ok`: the parts of an `Except` computation.
* `mapM_eq_ok`: a traversal succeeds with the list of what each item gives.
* `FailsOnly`: what an `Except` computation can fail with, from what its parts can.
* `SameOutcome`, `BothOk`: how two `Except` computations go together.
* `Encode.bind_ok`, `Encode.lift_ok`: the parts of an encode run, with the state
  between them.
-/

namespace WireSchema

/-! ## Corresponding lists -/

section Forall₂

variable {α β : Type} {R : α → β → Prop} {xs : List α} {ys : List β}

theorem exists_right_of_mem (h : List.Forall₂ R xs ys) {x : α} (hx : x ∈ xs) :
    ∃ y ∈ ys, R x y := by
  obtain ⟨i, hi, rfl⟩ := List.mem_iff_getElem.1 hx
  have hLt := h.length_eq ▸ hi
  exact ⟨ys[i], List.getElem_mem hLt, h.get hi hLt⟩

theorem rel_of_getElem? (h : List.Forall₂ R xs ys) {i : Nat} {x : α} {y : β}
    (hx : xs[i]? = some x) (hy : ys[i]? = some y) : R x y := by
  obtain ⟨hi, rfl⟩ := List.getElem?_eq_some_iff.1 hx
  obtain ⟨hj, rfl⟩ := List.getElem?_eq_some_iff.1 hy
  exact h.get hi hj

theorem exists_left_of_mem (h : List.Forall₂ R xs ys) {y : β} (hy : y ∈ ys) :
    ∃ x ∈ xs, R x y :=
  exists_right_of_mem h.flip hy

/-- What corresponds to a list that was put together is put together likewise. -/
theorem exists_append_of_forall₂ {front back : List β} (h : List.Forall₂ R xs (front ++ back)) :
    ∃ lead rest, xs = lead ++ rest ∧ List.Forall₂ R lead front ∧ List.Forall₂ R rest back :=
  ⟨_, _, (List.take_append_drop front.length xs).symm, List.forall₂_take_append _ _ _ h,
    List.forall₂_drop_append _ _ _ h⟩

/-- Corresponding lists give the same names, if corresponding items do. -/
theorem map_eq_of_forall₂ {γ : Type} {f : α → γ} {g : β → γ} (h : List.Forall₂ R xs ys)
    (hName : ∀ x y, R x y → g y = f x) : ys.map g = xs.map f := by
  induction h with
  | nil => rfl
  | cons hHead _ ih => rw [List.map_cons, List.map_cons, hName _ _ hHead, ih]

theorem filterMap_eq_of_forall₂ {γ : Type} {f : α → Option γ} {g : β → Option γ}
    (h : List.Forall₂ R xs ys) (hSame : ∀ x y, R x y → g y = f x) :
    ys.filterMap g = xs.filterMap f := by
  induction h with
  | nil => rfl
  | cons hHead _ ih => rw [List.filterMap_cons, List.filterMap_cons, hSame _ _ hHead, ih]

/-- If every item has something that corresponds to it, a list does. -/
theorem exists_forall₂_of_right (h : ∀ y ∈ ys, ∃ x, R x y) : ∃ xs, List.Forall₂ R xs ys := by
  induction ys with
  | nil => exact ⟨[], .nil⟩
  | cons y rest ih =>
      obtain ⟨⟨x, hx⟩, hRest⟩ := List.forall_mem_cons.1 h
      obtain ⟨xs, hxs⟩ := ih hRest
      exact ⟨x :: xs, .cons hx hxs⟩

end Forall₂

/-! ## Computations without state -/

section Except

variable {α β ε : Type}

theorem bind_eq_ok {x : Except ε α} {f : α → Except ε β} {b : β} :
    x >>= f = .ok b ↔ ∃ a, x = .ok a ∧ f a = .ok b := by
  cases x with
  | error e => simp [bind, Except.bind]
  | ok a => simp [bind, Except.bind]

theorem bind_eq_error {x : Except ε α} {f : α → Except ε β} {e : ε} :
    x >>= f = .error e ↔ x = .error e ∨ ∃ a, x = .ok a ∧ f a = .error e := by
  cases x with
  | error e' => simp [bind, Except.bind]
  | ok a => simp [bind, Except.bind]

theorem map_eq_ok {x : Except ε α} {f : α → β} {b : β} :
    x.map f = .ok b ↔ ∃ a, x = .ok a ∧ f a = b := by
  cases x with
  | error e => simp [Except.map]
  | ok a => simp [Except.map]

theorem pure_eq_ok {a b : α} : (pure a : Except ε α) = .ok b ↔ a = b := by
  simp [pure, Except.pure]

/-- A traversal succeeds exactly with the results of its items, in order. -/
theorem mapM_eq_ok {f : α → Except ε β} {xs : List α} {ys : List β} :
    xs.mapM f = .ok ys ↔ List.Forall₂ (fun x y => f x = .ok y) xs ys := by
  induction xs generalizing ys with
  | nil =>
      rw [List.mapM_nil, pure_eq_ok, List.forall₂_nil_left_iff, eq_comm]
  | cons x xs ih =>
      rw [List.mapM_cons, bind_eq_ok]
      constructor
      · rintro ⟨y, hy, hRest⟩
        obtain ⟨rest, hTail, hPure⟩ := bind_eq_ok.1 hRest
        rw [← pure_eq_ok.1 hPure]
        exact List.Forall₂.cons hy (ih.1 hTail)
      · intro h
        cases h with
        | cons hy hTail =>
            exact ⟨_, hy, bind_eq_ok.2 ⟨_, ih.2 hTail, rfl⟩⟩

/-- A traversal of the same items in another order gives the same results in another order. -/
theorem exists_mapM_of_perm {f : α → Except ε β} {xs others : List α} {ys : List β}
    (hPerm : others.Perm xs) (h : xs.mapM f = .ok ys) :
    ∃ results, others.mapM f = .ok results ∧ results.Perm ys := by
  obtain ⟨results, hResults, hSame⟩ := List.perm_comp_forall₂ hPerm (mapM_eq_ok.1 h)
  exact ⟨results, mapM_eq_ok.2 hResults, hSame⟩

/-- Traversals of corresponding items have the same outcome. -/
theorem mapM_congr_of_forall₂ {γ : Type} {f : α → Except ε γ} {g : β → Except ε γ} {xs : List α}
    {ys : List β} (h : List.Forall₂ (fun x y => f x = g y) xs ys) : xs.mapM f = ys.mapM g := by
  induction h with
  | nil => rfl
  | cons hHead _ ih => rw [List.mapM_cons, List.mapM_cons, hHead, ih]

/-- A traversal that succeeds gives what each item gives. -/
theorem eq_map_of_mapM [Inhabited β] {f : α → Except ε β} {xs : List α} {ys : List β}
    (h : xs.mapM f = .ok ys) : ys = xs.map fun x => (f x).toOption.getD default := by
  have hAll := mapM_eq_ok.1 h
  clear h
  induction hAll with
  | nil => rfl
  | cons hHead _ ih =>
      rw [List.map_cons, ← ih, hHead]
      rfl

/-- A check of all items succeeds exactly if the check of each one does. -/
theorem forM_eq_ok {f : α → Except ε Unit} {xs : List α} :
    xs.forM f = .ok () ↔ ∀ x ∈ xs, f x = .ok () := by
  induction xs with
  | nil => simp [pure, Except.pure]
  | cons x xs ih =>
      rw [List.forM_eq_forM, List.forM_cons, bind_eq_ok, List.forall_mem_cons, ← ih]
      exact ⟨fun ⟨_, hx, hRest⟩ => ⟨hx, hRest⟩, fun ⟨hx, hRest⟩ => ⟨(), hx, hRest⟩⟩

/-- Whatever the computation fails with has the property. -/
def FailsOnly (property : ε → Prop) (x : Except ε α) : Prop :=
  ∀ e, x = .error e → property e

namespace FailsOnly

variable {property : ε → Prop} {x : Except ε α}

theorem ok (a : α) : FailsOnly property (.ok a : Except ε α) :=
  nofun

theorem pure (a : α) : FailsOnly property (pure a : Except ε α) :=
  nofun

theorem error {e : ε} (h : property e) : FailsOnly property (.error e : Except ε α) := by
  rintro _ ⟨⟩
  exact h

theorem throw {e : ε} (h : property e) : FailsOnly property (throw e : Except ε α) :=
  error h

theorem bind {f : α → Except ε β} (h : FailsOnly property x)
    (hf : ∀ a, x = .ok a → FailsOnly property (f a)) : FailsOnly property (x >>= f) := by
  intro e hError
  rcases bind_eq_error.1 hError with hx | ⟨a, hx, hfa⟩
  · exact h e hx
  · exact hf a hx e hfa

theorem map {f : α → β} (h : FailsOnly property x) : FailsOnly property (x.map f) := by
  intro e hError
  cases x with
  | ok a => cases hError
  | error e' => exact h e (congrArg Except.error (Except.error.inj hError))

theorem mapM {f : α → Except ε β} {xs : List α} (h : ∀ x ∈ xs, FailsOnly property (f x)) :
    FailsOnly property (xs.mapM f) := by
  induction xs with
  | nil => exact pure []
  | cons x xs ih =>
      rw [List.mapM_cons]
      refine (h x List.mem_cons_self).bind fun _ _ => ?_
      exact (ih fun y hy => h y (List.mem_cons_of_mem _ hy)).bind fun _ _ => pure _

theorem forM {f : α → Except ε Unit} {xs : List α} (h : ∀ x ∈ xs, FailsOnly property (f x)) :
    FailsOnly property (xs.forM f) := by
  induction xs with
  | nil => exact pure ()
  | cons x xs ih =>
      exact (h x List.mem_cons_self).bind fun _ _ =>
        ih fun y hy => h y (List.mem_cons_of_mem _ hy)

end FailsOnly

/-- The computations fail with the same error, or give related results. -/
inductive SameOutcome (R : α → β → Prop) : Except ε α → Except ε β → Prop
  | ok {a : α} {b : β} : R a b → SameOutcome R (.ok a) (.ok b)
  | error (e : ε) : SameOutcome R (.error e) (.error e)

namespace SameOutcome

variable {γ δ : Type} {R : α → β → Prop} {x : Except ε α} {y : Except ε β}

theorem cases_eq (h : SameOutcome R x y) :
    (∃ e, x = .error e ∧ y = .error e) ∨ ∃ a b, x = .ok a ∧ y = .ok b ∧ R a b := by
  cases h with
  | ok hRelated => exact .inr ⟨_, _, rfl, rfl, hRelated⟩
  | error e => exact .inl ⟨e, rfl, rfl⟩

theorem bind_eq {f : α → Except ε γ} {g : β → Except ε γ} (h : SameOutcome R x y)
    (hRest : ∀ a b, x = .ok a → y = .ok b → R a b → f a = g b) : x >>= f = y >>= g := by
  cases h with
  | ok hRelated => exact hRest _ _ rfl rfl hRelated
  | error e => rfl

theorem bind {S : γ → δ → Prop} {f : α → Except ε γ} {g : β → Except ε δ}
    (h : SameOutcome R x y) (hRest : ∀ a b, R a b → SameOutcome S (f a) (g b)) :
    SameOutcome S (x >>= f) (y >>= g) := by
  cases h with
  | ok hRelated => exact hRest _ _ hRelated
  | error e => exact .error e

end SameOutcome

/-- If both computations succeed, their results are related. -/
def BothOk (R : α → β → Prop) (x : Except ε α) (y : Except ε β) : Prop :=
  ∀ a b, x = .ok a → y = .ok b → R a b

namespace BothOk

variable {γ δ : Type} {R : α → β → Prop} {S : γ → δ → Prop} {x : Except ε α} {y : Except ε β}

theorem ok {a : α} {b : β} (h : R a b) : BothOk R (.ok a : Except ε α) (.ok b) := by
  rintro _ _ ⟨⟩ ⟨⟩
  exact h

theorem pure {a : α} {b : β} (h : R a b) : BothOk R (pure a : Except ε α) (pure b) :=
  ok h

theorem error_left (e : ε) : BothOk R (.error e) y :=
  nofun

theorem bind {f : α → Except ε γ} {g : β → Except ε δ} (h : BothOk R x y)
    (hRest : ∀ a b, R a b → BothOk S (f a) (g b)) : BothOk S (x >>= f) (y >>= g) := by
  intro c d hLeft hRight
  obtain ⟨a, hx, hfa⟩ := bind_eq_ok.1 hLeft
  obtain ⟨b, hy, hgb⟩ := bind_eq_ok.1 hRight
  exact hRest a b (h a b hx hy) c d hfa hgb

theorem map {f : α → γ} {g : β → δ} (h : BothOk R x y) (hRest : ∀ a b, R a b → S (f a) (g b)) :
    BothOk S (x.map f) (y.map g) := by
  intro c d hLeft hRight
  obtain ⟨a, hx, rfl⟩ := map_eq_ok.1 hLeft
  obtain ⟨b, hy, rfl⟩ := map_eq_ok.1 hRight
  exact hRest a b (h a b hx hy)

theorem mapM {f : α → Except ε γ} {g : β → Except ε δ} {xs : List α} {ys : List β}
    (h : List.Forall₂ (fun a b => BothOk S (f a) (g b)) xs ys) :
    BothOk (List.Forall₂ S) (xs.mapM f) (ys.mapM g) := by
  intro cs ds hLeft hRight
  rw [mapM_eq_ok] at hLeft hRight
  induction h generalizing cs ds with
  | nil =>
      cases hLeft
      cases hRight
      exact .nil
  | cons hHead _ ih =>
      cases hLeft with
      | cons hc hcs =>
          cases hRight with
          | cons hd hds => exact .cons (hHead _ _ hc hd) (ih _ _ hcs hds)

end BothOk

end Except

/-! ## Encode runs -/

namespace Encode

variable {α β : Type}

theorem bind_ok {m : Encode α} {k : α → Encode β} {out out' : Output} {b : β} :
    (m >>= k) out = .ok b out' ↔ ∃ a mid, m out = .ok a mid ∧ k a mid = .ok b out' := by
  show EStateM.bind m k out = _ ↔ _
  unfold EStateM.bind
  cases h : m out with
  | ok a mid => simp
  | error e mid => simp

theorem bind_error {m : Encode α} {k : α → Encode β} {out out' : Output} {fault : Fault} :
    (m >>= k) out = .error fault out' ↔
      m out = .error fault out' ∨ ∃ a mid, m out = .ok a mid ∧ k a mid = .error fault out' := by
  show EStateM.bind m k out = _ ↔ _
  unfold EStateM.bind
  cases h : m out with
  | ok a mid => simp
  | error e mid => simp

theorem get_bind {f : Output → Encode β} {out : Output} : (get >>= f) out = f out out :=
  rfl

theorem bind_of_ok {m : Encode α} {f : α → Encode β} {a : α} {out mid : Output}
    (h : m out = .ok a mid) : (m >>= f) out = f a mid := by
  show EStateM.bind m f out = f a mid
  unfold EStateM.bind
  rw [h]

theorem lift_ok {x : Except Fault α} {a : α} {out out' : Output} :
    (liftM x : Encode α) out = .ok a out' ↔ x = .ok a ∧ out = out' := by
  cases x with
  | error fault =>
      show EStateM.Result.error fault out = .ok a out' ↔ _
      simp
  | ok value =>
      show EStateM.Result.ok value out = .ok a out' ↔ _
      simp

/-- A run that goes on after a computation without output has not moved before. -/
theorem lift_bind_ok {x : Except Fault α} {k : α → Encode β} {out out' : Output} {b : β} :
    (liftM x >>= k) out = .ok b out' ↔ ∃ a, x = .ok a ∧ k a out = .ok b out' := by
  rw [bind_ok]
  constructor
  · rintro ⟨a, mid, hLift, hRest⟩
    obtain ⟨hFound, rfl⟩ := lift_ok.1 hLift
    exact ⟨a, hFound, hRest⟩
  · rintro ⟨a, hFound, hRest⟩
    exact ⟨a, out, lift_ok.2 ⟨hFound, rfl⟩, hRest⟩

theorem lift_bind_of_ok {x : Except Fault α} {a : α} (h : x = .ok a) (k : α → Encode β) :
    (liftM x >>= k) = k a := by
  rw [h]
  rfl

/-- Runs that go on alike after computations with the same outcome are alike. -/
theorem lift_bind_eq {γ : Type} {R : α → β → Prop} {x : Except Fault α} {y : Except Fault β}
    {f : α → Encode γ} {g : β → Encode γ} (h : SameOutcome R x y)
    (hRest : ∀ a b, x = .ok a → y = .ok b → R a b → f a = g b) :
    (liftM x >>= f) = (liftM y >>= g) := by
  cases h with
  | ok hRelated =>
      funext out
      show f _ out = g _ out
      rw [hRest _ _ rfl rfl hRelated]
  | error fault => rfl

/-- Sequences of runs are alike if corresponding runs are. -/
theorem forM_eq_of_forall₂ {R : α → β → Prop} {f : α → Encode Unit} {g : β → Encode Unit}
    {xs : List α} {ys : List β} (h : List.Forall₂ R xs ys)
    (hRuns : ∀ x ∈ xs, ∀ y ∈ ys, R x y → f x = g y) : xs.forM f = ys.forM g := by
  induction h with
  | nil => rfl
  | @cons x y xs ys hHead _ ih =>
      have hRest : xs.forM f = ys.forM g := ih fun x hx y hy =>
        hRuns x (List.mem_cons_of_mem _ hx) y (List.mem_cons_of_mem _ hy)
      show (f x >>= fun _ => xs.forM f) = (g y >>= fun _ => ys.forM g)
      rw [hRuns x List.mem_cons_self y List.mem_cons_self hHead, hRest]

end Encode

end WireSchema
