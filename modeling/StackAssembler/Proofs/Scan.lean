import Mathlib.Data.List.Basic
import Mathlib.Data.List.Forall2
import Mathlib.Data.List.Induction
import Mathlib.Tactic.Lemma
import StackAssembler.Source.Line

/-!
# Scans of a source

A scan reads lines from the first to the last. What it makes of a line depends on the lines before
it, so the notions here speak of a line together with the lines before it: `collect` gathers what
the lines give, `Clean` and `FirstFault` say which line a scan stops at.

The main statements are `foldlM_eq_ok_iff` and `foldlM_eq_error_iff`: when a relation describes the
errors of single steps, a run succeeds exactly on the lists without a fault, and its error is the
one of the first fault. Two runs are compared step by step in `map_foldlM_eq_map_foldlM`, where
they show the same, and in `Corresponds.foldlM`, where what they show is related.
-/

namespace StackAssembler

variable {α β σ ε : Type}

/-! ### Results -/

lemma bind_eq_ok_iff {x : Except ε α} {f : α → Except ε β} {b : β} :
    (x >>= f) = .ok b ↔ ∃ a, x = .ok a ∧ f a = .ok b := by
  cases x with
  | error e => simp [bind, Except.bind]
  | ok a => simp [bind, Except.bind]

lemma bind_eq_error_iff {x : Except ε α} {f : α → Except ε β} {e : ε} :
    (x >>= f) = .error e ↔ x = .error e ∨ ∃ a, x = .ok a ∧ f a = .error e := by
  cases x with
  | error e => simp [bind, Except.bind]
  | ok a => simp [bind, Except.bind]

lemma map_bind_eq {γ : Type} (x : Except ε α) (f : α → β) (g : β → Except ε γ) :
    (x.map f >>= g) = x >>= fun a => g (f a) := by
  cases x <;> rfl

namespace SourceLine

@[simp] lemma locate_eq_ok_iff {l : SourceLine} {x : Except LineFault α} {a : α} :
    l.locate x = .ok a ↔ x = .ok a := by
  cases x <;> simp [locate]

@[simp] lemma locate_eq_error_iff {l : SourceLine} {x : Except LineFault α} {e : AssemblyError} :
    l.locate x = .error e ↔ ∃ f, x = .error f ∧ e = .atLine l.number f := by
  cases x <;> simp [locate, eq_comm]

end SourceLine

/-! ### Collecting along a scan -/

/-- What the elements give, each behind the elements before it. The first argument holds the
elements before the list. -/
def collectAfter (f : List α → α → List β) : List α → List α → List β
  | _, [] => []
  | before, a :: as => f before a ++ collectAfter f (before ++ [a]) as

/-- What the elements of a list give, each behind the elements before it. -/
def collect (f : List α → α → List β) (as : List α) : List β := collectAfter f [] as

variable {f g : List α → α → List β}

@[simp] lemma collectAfter_nil (before : List α) : collectAfter f before [] = [] := rfl

@[simp] lemma collectAfter_cons (before : List α) (a : α) (as : List α) :
    collectAfter f before (a :: as) = f before a ++ collectAfter f (before ++ [a]) as := rfl

@[simp] lemma collect_nil : collect f [] = [] := rfl

lemma collectAfter_append (before as bs : List α) :
    collectAfter f before (as ++ bs) =
      collectAfter f before as ++ collectAfter f (before ++ as) bs := by
  induction as generalizing before with
  | nil => simp
  | cons a as ih => simp [ih]

lemma collect_append (as bs : List α) :
    collect f (as ++ bs) = collect f as ++ collectAfter f as bs := by
  simpa [collect] using collectAfter_append (f := f) [] as bs

lemma collect_concat (as : List α) (a : α) : collect f (as ++ [a]) = collect f as ++ f as a := by
  simp [collect_append]

lemma mem_collectAfter_iff {b : β} {before as : List α} :
    b ∈ collectAfter f before as ↔
      ∃ middle a after, as = middle ++ a :: after ∧ b ∈ f (before ++ middle) a := by
  constructor
  · induction as generalizing before with
    | nil => simp
    | cons a as ih =>
      rw [collectAfter_cons, List.mem_append]
      rintro (h | h)
      · exact ⟨[], a, as, rfl, by simpa using h⟩
      · obtain ⟨middle, x, after, rfl, hb⟩ := ih h
        exact ⟨a :: middle, x, after, rfl, by simpa using hb⟩
  · rintro ⟨middle, a, after, rfl, hb⟩
    rw [collectAfter_append, collectAfter_cons]
    exact List.mem_append_right _ (List.mem_append_left _ hb)

/-- An element is collected where some element gives it. -/
lemma mem_collect_iff {b : β} {as : List α} :
    b ∈ collect f as ↔ ∃ before a after, as = before ++ a :: after ∧ b ∈ f before a :=
  mem_collectAfter_iff

/-- What stands at a place of a collection is given by one of the elements, behind what the elements
before it give. -/
lemma exists_of_getElem?_collect {as : List α} {j : Nat} {b : β} (h : (collect f as)[j]? = some b) :
    ∃ before a after k, as = before ++ a :: after ∧ j = (collect f before).length + k ∧
      (f before a)[k]? = some b := by
  induction as using List.reverseRecOn with
  | nil => simp at h
  | append_singleton as a ih =>
    rw [collect_concat] at h
    by_cases hj : j < (collect f as).length
    · rw [List.getElem?_append_left hj] at h
      obtain ⟨before, x, after, k, rfl, hk, hb⟩ := ih h
      exact ⟨before, x, after ++ [a], k, by simp, hk, hb⟩
    · rw [List.getElem?_append_right (by omega)] at h
      exact ⟨as, a, [], j - (collect f as).length, rfl, by omega, h⟩

/-- Two collections agree when they agree on every element and the elements before it. -/
lemma collect_congr {as : List α}
    (h : ∀ before a after, as = before ++ a :: after → f before a = g before a) :
    collect f as = collect g as := by
  induction as using List.reverseRecOn with
  | nil => rfl
  | append_singleton as a ih =>
    rw [collect_concat, collect_concat, h as a [] rfl, ih]
    rintro before x after rfl
    exact h before x (after ++ [a]) (by simp)

/-- What elements give behind others is collected from them alone, where it can be told without the
others. -/
lemma collectAfter_eq_collect {before as : List α}
    (h : ∀ middle a after, as = middle ++ a :: after → f (before ++ middle) a = g middle a) :
    collectAfter f before as = collect g as := by
  induction as using List.reverseRecOn with
  | nil => rfl
  | append_singleton as a ih =>
    rw [collectAfter_append, collect_concat, ih]
    · simp [h as a [] rfl]
    · rintro middle x after rfl
      exact h middle x (after ++ [a]) (by simp)

/-- Where the elements before do not matter, collecting is mapping. -/
lemma collect_eq_flatMap (k : α → List β) (as : List α) :
    collect (fun _ a => k a) as = as.flatMap k := by
  induction as using List.reverseRecOn with
  | nil => rfl
  | append_singleton as a ih => simp [collect_concat, ih]

lemma map_collect {γ : Type} (k : β → γ) (as : List α) :
    (collect f as).map k = collect (fun before a => (f before a).map k) as := by
  induction as using List.reverseRecOn with
  | nil => rfl
  | append_singleton as a ih => simp [collect_concat, ih]

/-! ### The first fault -/

/-- A place in a list with one more element at its end is that element or a place before it. -/
lemma concat_eq_append_cons_iff {as before after : List α} {a x : α} :
    as ++ [a] = before ++ x :: after ↔
      (before = as ∧ x = a ∧ after = []) ∨ ∃ rest, after = rest ++ [a] ∧ as = before ++ x :: rest := by
  constructor
  · intro h
    obtain rfl | ⟨rest, y, rfl⟩ := List.eq_nil_or_concat' after
    · obtain ⟨rfl, rfl⟩ := List.append_singleton_inj.mp h
      exact Or.inl ⟨rfl, rfl, rfl⟩
    · rw [← List.cons_append, ← List.append_assoc] at h
      obtain ⟨rfl, rfl⟩ := List.append_singleton_inj.mp h
      exact Or.inr ⟨rest, rfl, rfl⟩
  · rintro (⟨rfl, rfl, rfl⟩ | ⟨rest, rfl, rfl⟩)
    · rfl
    · simp

/-- No element raises a fault behind the elements before it. -/
def Clean (Fault : List α → α → ε → Prop) (as : List α) : Prop :=
  ∀ before a after, as = before ++ a :: after → ∀ e, ¬ Fault before a e

/-- The fault of the first element that raises one. -/
def FirstFault (Fault : List α → α → ε → Prop) (as : List α) (e : ε) : Prop :=
  ∃ before a after, as = before ++ a :: after ∧ Fault before a e ∧ Clean Fault before

variable {Fault : List α → α → ε → Prop}

lemma clean_nil : Clean Fault [] := by
  intro before a after h
  simp at h

lemma Clean.of_append {as bs : List α} (h : Clean Fault (as ++ bs)) : Clean Fault as := by
  rintro before a after rfl
  exact h before a (after ++ bs) (by simp)

lemma clean_concat_iff {as : List α} {a : α} :
    Clean Fault (as ++ [a]) ↔ Clean Fault as ∧ ∀ e, ¬ Fault as a e := by
  constructor
  · intro h
    exact ⟨h.of_append, h as a [] rfl⟩
  · rintro ⟨hs, ha⟩ before x after heq
    obtain ⟨rfl, rfl, rfl⟩ | ⟨rest, rfl, rfl⟩ := concat_eq_append_cons_iff.mp heq
    · exact ha
    · exact hs before x rest rfl

lemma firstFault_concat_iff {as : List α} {a : α} {e : ε} :
    FirstFault Fault (as ++ [a]) e ↔ FirstFault Fault as e ∨ Clean Fault as ∧ Fault as a e := by
  constructor
  · rintro ⟨before, x, after, heq, hx, hc⟩
    obtain ⟨rfl, rfl, rfl⟩ | ⟨rest, rfl, rfl⟩ := concat_eq_append_cons_iff.mp heq
    · exact Or.inr ⟨hc, hx⟩
    · exact Or.inl ⟨before, x, rest, rfl, hx, hc⟩
  · rintro (⟨before, x, after, rfl, hx, hc⟩ | ⟨hc, ha⟩)
    · exact ⟨before, x, after ++ [a], by simp, hx, hc⟩
    · exact ⟨as, a, [], rfl, ha, hc⟩

variable {step : σ → α → Except ε σ} {s : σ}

lemma foldlM_concat (as : List α) (a : α) :
    (as ++ [a]).foldlM step s = as.foldlM step s >>= fun t => step t a := by
  rw [List.foldlM_append]
  congr 1
  funext t
  simp

/-- A run succeeds exactly where no element raises a fault. -/
theorem foldlM_eq_ok_iff {as : List α}
    (hstep : ∀ before a after t, as = before ++ a :: after → before.foldlM step s = .ok t →
      ∀ e, step t a = .error e ↔ Fault before a e) :
    (∃ t, as.foldlM step s = .ok t) ↔ Clean Fault as := by
  induction as using List.reverseRecOn with
  | nil => exact ⟨fun _ => clean_nil, fun _ => ⟨s, rfl⟩⟩
  | append_singleton as a ih =>
    have ih := ih fun before x after t heq => hstep before x (after ++ [a]) t (by simp [heq])
    rw [clean_concat_iff, ← ih]
    simp only [foldlM_concat, bind_eq_ok_iff]
    constructor
    · rintro ⟨u, t, ht, hu⟩
      refine ⟨⟨t, ht⟩, fun e he => ?_⟩
      rw [(hstep as a [] t rfl ht e).mpr he] at hu
      cases hu
    · rintro ⟨⟨t, ht⟩, ha⟩
      cases hu : step t a with
      | ok u => exact ⟨u, t, ht, hu⟩
      | error e => exact absurd ((hstep as a [] t rfl ht e).mp hu) (ha e)

/-- The error of a run is the fault of the first element that raises one. -/
theorem foldlM_eq_error_iff {as : List α} {e : ε}
    (hstep : ∀ before a after t, as = before ++ a :: after → before.foldlM step s = .ok t →
      ∀ e, step t a = .error e ↔ Fault before a e) :
    as.foldlM step s = .error e ↔ FirstFault Fault as e := by
  induction as using List.reverseRecOn with
  | nil => simp [FirstFault, pure, Except.pure]
  | append_singleton as a ih =>
    have hstep' : ∀ before x after t, as = before ++ x :: after → before.foldlM step s = .ok t →
        ∀ e, step t x = .error e ↔ Fault before x e :=
      fun before x after t heq => hstep before x (after ++ [a]) t (by simp [heq])
    rw [firstFault_concat_iff, ← ih hstep', ← foldlM_eq_ok_iff hstep', foldlM_concat,
      bind_eq_error_iff]
    refine or_congr_right ⟨?_, ?_⟩
    · rintro ⟨t, ht, he⟩
      exact ⟨⟨t, ht⟩, (hstep as a [] t rfl ht e).mp he⟩
    · rintro ⟨⟨t, ht⟩, he⟩
      exact ⟨t, ht, (hstep as a [] t rfl ht e).mpr he⟩

/-! ### Two runs side by side -/

/-- Two runs over lists of one length agree in what their views show, where they agree in it behind
each step. -/
theorem map_foldlM_eq_map_foldlM {α' σ' γ : Type} {step' : σ' → α' → Except ε σ'} {s' : σ'}
    {view : σ → γ} {view' : σ' → γ} {as : List α} {as' : List α'} (hlength : as.length = as'.length)
    (hstart : view s = view' s')
    (hstep : ∀ before a after before' a' after' t t', as = before ++ a :: after →
      as' = before' ++ a' :: after' → before.length = before'.length →
      before.foldlM step s = .ok t → before'.foldlM step' s' = .ok t' → view t = view' t' →
      (step t a).map view = (step' t' a').map view') :
    (as.foldlM step s).map view = (as'.foldlM step' s').map view' := by
  induction as using List.reverseRecOn generalizing as' with
  | nil =>
    obtain rfl := List.length_eq_zero_iff.mp hlength.symm
    exact congrArg Except.ok hstart
  | append_singleton as a ih =>
    obtain rfl | ⟨as', a', rfl⟩ := List.eq_nil_or_concat' as'
    · simp at hlength
    have hlength : as.length = as'.length := by simpa using hlength
    have ih := ih hlength fun before x after before' x' after' t t' heq heq' =>
      hstep before x (after ++ [a]) before' x' (after' ++ [a']) t t' (by simp [heq]) (by simp [heq'])
    rw [foldlM_concat, foldlM_concat]
    cases ht : as.foldlM step s with
    | error e =>
      cases ht' : as'.foldlM step' s' with
      | error e' =>
        rw [ht, ht'] at ih
        cases ih
        rfl
      | ok t' => simp [ht, ht', Except.map] at ih
    | ok t =>
      cases ht' : as'.foldlM step' s' with
      | error e' => simp [ht, ht', Except.map] at ih
      | ok t' =>
        rw [ht, ht'] at ih
        exact hstep as a [] as' a' [] t t' rfl rfl hlength ht ht' (Except.ok.inj ih)

/-- Two results correspond: both are values that do, or both are errors that do. -/
inductive Corresponds {ε' α' : Type} (E : ε → ε' → Prop) (R : α → α' → Prop) :
    Except ε α → Except ε' α' → Prop where
  | ok {a : α} {a' : α'} (h : R a a') : Corresponds E R (.ok a) (.ok a')
  | error {e : ε} {e' : ε'} (h : E e e') : Corresponds E R (.error e) (.error e')

namespace Corresponds

variable {ε' α' β' σ' : Type} {E F : ε → ε' → Prop} {R : α → α' → Prop} {S : β → β' → Prop}
  {x : Except ε α} {x' : Except ε' α'}

lemma imp {R' : α → α' → Prop} (h : Corresponds E R x x') (hE : ∀ e e', E e e' → F e e')
    (hR : ∀ a a', R a a' → R' a a') : Corresponds F R' x x' := by
  cases h with
  | ok h => exact .ok (hR _ _ h)
  | error h => exact .error (hE _ _ h)

lemma bind {f : α → Except ε β} {f' : α' → Except ε' β'} (h : Corresponds E R x x')
    (hf : ∀ a a', R a a' → Corresponds E S (f a) (f' a')) :
    Corresponds E S (x >>= f) (x' >>= f') := by
  cases h with
  | ok h => exact hf _ _ h
  | error h => exact .error h

/-- Results that correspond and fail alike lead to the same, where the values that correspond do. -/
lemma bind_eq {x x' : Except ε α} {P : α → α → Prop} {f : α → Except ε β}
    (h : Corresponds (· = ·) P x x') (hf : ∀ a a', P a a' → f a = f a') :
    x >>= f = x' >>= f := by
  cases h with
  | ok h => exact hf _ _ h
  | error h => rw [h]

/-- Two runs over elements that correspond come to results that correspond, where single steps
do. -/
theorem foldlM {P : σ → σ' → Prop} {L : α → α' → Prop} {step : σ → α → Except ε σ}
    {step' : σ' → α' → Except ε' σ'}
    (hstep : ∀ s s' a a', P s s' → L a a' → Corresponds E P (step s a) (step' s' a'))
    {as : List α} {as' : List α'} (has : List.Forall₂ L as as') {s : σ} {s' : σ'} (hs : P s s') :
    Corresponds E P (as.foldlM step s) (as'.foldlM step' s') := by
  induction has generalizing s s' with
  | nil => exact .ok hs
  | cons ha _ ih =>
    rw [List.foldlM_cons, List.foldlM_cons]
    apply (hstep _ _ _ _ hs ha).bind
    intro t t' ht
    exact ih ht

end Corresponds

end StackAssembler
