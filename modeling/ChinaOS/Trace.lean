import Mathlib.Tactic

/-!
Computations that log what they access.

* `Traced`: a computation on a state, which may not end, and which logs its accesses.
  `Traced.erase`: what it does, without the log.
* `Traced.Only`: the computation ends, with proper accesses only, in a state that is as it should
  be. `Traced.Within`: it does so if it ends. `only_bind`, `Within.bind` and the lemmas around them
  are the rules for the steps of a computation.
* `Within.bind_erase`, `Only.post`: what the computation without the log returns is known with it.
* `Traced.Frames`: what is not accessed does not change, with a rule for each step.
-/

/-- A computation on states of the type `σ`, which may not end, and which logs its accesses. -/
def Traced (σ A α : Type) : Type := σ → Option (α × σ × List A)

namespace Traced

variable {σ A α β : Type} {V V' : A → Prop} {Q Q' : α → σ → Prop} {s s' : σ} {a : α} {x : A}

instance : Monad (Traced σ A) where
  pure a s := some (a, s, [])
  bind m f s := (m s).bind fun r =>
    (f r.1 r.2.1).map fun r' => (r'.1, r'.2.1, r.2.2 ++ r'.2.2)

/-- The access `x` reads something of the state. -/
def read (x : A) (f : σ → α) : Traced σ A α := fun s => some (f s, s, [x])

/-- The access `x` changes the state. -/
def write (x : A) (f : σ → σ) : Traced σ A Unit := fun s => some ((), f s, [x])

/-- What is read without an access. -/
def look (f : σ → α) : Traced σ A α := fun s => some (f s, s, [])

/-- What changes without an access, if it can. -/
def change (f : σ → Option σ) : Traced σ A Unit := fun s => (f s).map fun s' => ((), s', [])

/-- No end. -/
def fail : Traced σ A α := fun _ => none

/-! ### The computation without the log -/

/-- What the computation does, without the log. -/
def erase (m : Traced σ A α) (s : σ) : Option (σ × α) := (m s).map fun r => (r.2.1, r.1)

@[simp] lemma erase_pure : (pure a : Traced σ A α).erase s = some (s, a) := rfl

@[simp] lemma erase_bind (m : Traced σ A α) (f : α → Traced σ A β) :
    (m >>= f).erase s = (m.erase s).bind fun r => (f r.2).erase r.1 := by
  show Option.map _ (Option.bind (m s) _) = Option.bind (Option.map _ (m s)) _
  cases m s with
  | none => rfl
  | some r =>
      simp only [Option.bind_some, Option.map_some, Option.map_map, erase]
      rfl

@[simp] lemma erase_look (f : σ → α) : (look f : Traced σ A α).erase s = some (s, f s) := rfl

@[simp] lemma erase_change (f : σ → Option σ) :
    (change f : Traced σ A Unit).erase s = (f s).map fun s' => (s', ()) := by
  rw [erase, change, Option.map_map]
  rfl

@[simp] lemma erase_fail : (fail : Traced σ A α).erase s = none := rfl

@[simp] lemma erase_ite {c : Prop} [Decidable c] {m m' : Traced σ A α} :
    (if c then m else m').erase s = if c then m.erase s else m'.erase s := by
  split_ifs <;> rfl

/-! ### Proper accesses only -/

/-- The computation ends, all its accesses satisfy `V`, and the result and the state then
satisfy `Q`. -/
def Only (V : A → Prop) (m : Traced σ A α) (Q : α → σ → Prop) (s : σ) : Prop :=
  ∃ r, m s = some r ∧ (∀ x ∈ r.2.2, V x) ∧ Q r.1 r.2.1

/-- **One computation after the other.** -/
@[simp] theorem only_bind {m : Traced σ A α} {f : α → Traced σ A β} {Q : β → σ → Prop} :
    Only V (m >>= f) Q s ↔ Only V m (fun a s' => Only V (f a) Q s') s := by
  constructor
  · rintro ⟨r, hr, hV, hQ⟩
    obtain ⟨r₁, hr₁, hr⟩ := Option.bind_eq_some_iff.mp hr
    obtain ⟨r₂, hr₂, rfl⟩ := Option.map_eq_some_iff.mp hr
    exact ⟨r₁, hr₁, fun x hx => hV x (List.mem_append_left _ hx), r₂, hr₂,
      fun x hx => hV x (List.mem_append_right _ hx), hQ⟩
  · rintro ⟨r₁, hr₁, hV₁, r₂, hr₂, hV₂, hQ⟩
    refine ⟨_, Option.bind_eq_some_iff.mpr ⟨r₁, hr₁, Option.map_eq_some_iff.mpr ⟨r₂, hr₂, rfl⟩⟩,
      fun x hx => ?_, hQ⟩
    rcases List.mem_append.mp hx with hx | hx
    · exact hV₁ x hx
    · exact hV₂ x hx

@[simp] lemma only_read {f : σ → α} : Only V (read x f) Q s ↔ V x ∧ Q (f s) s := by
  constructor
  · rintro ⟨r, hr, hV, hQ⟩
    rw [← Option.some.inj hr] at hV hQ
    exact ⟨hV x (List.mem_singleton_self x), hQ⟩
  · exact fun ⟨hV, hQ⟩ => ⟨_, rfl, fun y hy => List.mem_singleton.mp hy ▸ hV, hQ⟩

/-- What the computation without the log returns is as it should be. -/
lemma Only.post {m : Traced σ A α} (h : Only V m Q s) (he : m.erase s = some (s', a)) : Q a s' := by
  obtain ⟨r, hr, -, hQ⟩ := h
  rw [erase, hr, Option.map_some, Option.some.injEq, Prod.mk.injEq] at he
  rw [← he.1, ← he.2]
  exact hQ

/-! ### Whether it ends or not -/

/-- If the computation ends, all its accesses satisfy `V`, and the result and the state then
satisfy `Q`. -/
def Within (V : A → Prop) (m : Traced σ A α) (Q : α → σ → Prop) (s : σ) : Prop :=
  ∀ r, m s = some r → (∀ x ∈ r.2.2, V x) ∧ Q r.1 r.2.1

lemma within_pure (hQ : Q a s) : Within V (pure a) Q s := by
  intro r hr
  rw [← Option.some.inj hr]
  exact ⟨by simp, hQ⟩

/-- **One computation after the other.** -/
theorem Within.bind {m : Traced σ A α} {f : α → Traced σ A β} {Q' : β → σ → Prop}
    (hm : Within V m Q s) (hf : ∀ a s', Q a s' → Within V (f a) Q' s') :
    Within V (m >>= f) Q' s := by
  intro r hr
  obtain ⟨r₁, hr₁, hr⟩ := Option.bind_eq_some_iff.mp hr
  obtain ⟨r₂, hr₂, rfl⟩ := Option.map_eq_some_iff.mp hr
  obtain ⟨hV₁, hQ₁⟩ := hm r₁ hr₁
  obtain ⟨hV₂, hQ₂⟩ := hf _ _ hQ₁ r₂ hr₂
  refine ⟨fun x hx => ?_, hQ₂⟩
  rcases List.mem_append.mp hx with hx | hx
  · exact hV₁ x hx
  · exact hV₂ x hx

lemma within_read {f : σ → α} (hV : V x) (hQ : Q (f s) s) : Within V (read x f) Q s := by
  intro r hr
  rw [← Option.some.inj hr]
  exact ⟨fun y hy => List.mem_singleton.mp hy ▸ hV, hQ⟩

lemma within_write {f : σ → σ} {Q : Unit → σ → Prop} (hV : V x) (hQ : Q () (f s)) :
    Within V (write x f) Q s := by
  intro r hr
  rw [← Option.some.inj hr]
  exact ⟨fun y hy => List.mem_singleton.mp hy ▸ hV, hQ⟩

lemma within_look {f : σ → α} (hQ : Q (f s) s) : Within V (look f) Q s := by
  intro r hr
  rw [← Option.some.inj hr]
  exact ⟨by simp, hQ⟩

lemma within_change {f : σ → Option σ} {Q : Unit → σ → Prop} (hQ : ∀ s', f s = some s' → Q () s') :
    Within V (change f) Q s := by
  intro r hr
  obtain ⟨s', hs', rfl⟩ := Option.map_eq_some_iff.mp hr
  exact ⟨by simp, hQ s' hs'⟩

lemma within_fail : Within V fail Q s := fun r hr => by simp [fail] at hr

/-- Both ways of a decision. -/
lemma within_ite {c : Prop} [Decidable c] {m m' : Traced σ A α} (hm : c → Within V m Q s)
    (hm' : ¬ c → Within V m' Q s) : Within V (if c then m else m') Q s := by
  split_ifs with h
  · exact hm h
  · exact hm' h

namespace Within

/-- Less may be asked. -/
lemma mono {m : Traced σ A α} (h : Within V m Q s) (hV : ∀ x, V x → V' x)
    (hQ : ∀ a s', Q a s' → Q' a s') : Within V' m Q' s :=
  fun r hr => ⟨fun x hx => hV x ((h r hr).1 x hx), hQ _ _ (h r hr).2⟩

/-- **What the computation without the log returns** is known behind it. -/
theorem bind_erase {m : Traced σ A α} {f : α → Traced σ A β} {Q' : β → σ → Prop}
    (h : Within V m Q s) (he : m.erase s = some (s', a)) (hf : Within V (f a) Q' s') :
    Within V (m >>= f) Q' s := by
  refine bind (Q := fun b t => b = a ∧ t = s') (fun r hr => ⟨(h r hr).1, ?_⟩) ?_
  · rw [erase, hr, Option.map_some, Option.some.injEq, Prod.mk.injEq] at he
    exact ⟨he.2, he.1⟩
  · rintro b t ⟨rfl, rfl⟩
    exact hf

end Within

/-! ### What is not accessed -/

/-- The computation keeps the value `val s i` at each place `i` that it does not access. -/
class Frames {ι δ : Type} (loc : A → ι) (val : σ → ι → δ) (m : Traced σ A α) : Prop where
  keeps : ∀ s r, m s = some r → ∀ i, (∀ x ∈ r.2.2, loc x ≠ i) → val r.2.1 i = val s i

section Frames

variable {ι δ : Type} {loc : A → ι} {val : σ → ι → δ}

instance frames_pure : Frames loc val (pure a : Traced σ A α) where
  keeps s r hr i _ := by rw [← Option.some.inj hr]

/-- **One computation after the other.** -/
instance frames_bind {m : Traced σ A α} {f : α → Traced σ A β} [hm : Frames loc val m]
    [hf : ∀ a, Frames loc val (f a)] : Frames loc val (m >>= f) where
  keeps s r hr i hi := by
    obtain ⟨r₁, hr₁, hr⟩ := Option.bind_eq_some_iff.mp hr
    obtain ⟨r₂, hr₂, rfl⟩ := Option.map_eq_some_iff.mp hr
    exact ((hf r₁.1).keeps _ r₂ hr₂ i fun y hy => hi y (List.mem_append_right _ hy)).trans
      (hm.keeps s r₁ hr₁ i fun y hy => hi y (List.mem_append_left _ hy))

instance frames_read {f : σ → α} : Frames loc val (read x f) where
  keeps s r hr i _ := by rw [← Option.some.inj hr]

lemma frames_write {f : σ → σ} (h : ∀ s i, loc x ≠ i → val (f s) i = val s i) :
    Frames loc val (write x f) where
  keeps s r hr i hi := by
    obtain rfl := Option.some.inj hr
    exact h s i (hi x (List.mem_singleton_self x))

instance frames_look {f : σ → α} : Frames loc val (look f : Traced σ A α) where
  keeps s r hr i _ := by rw [← Option.some.inj hr]

lemma frames_change {f : σ → Option σ} (h : ∀ s s', f s = some s' → val s' = val s) :
    Frames loc val (change f : Traced σ A Unit) where
  keeps s r hr i _ := by
    obtain ⟨s', hs', rfl⟩ := Option.map_eq_some_iff.mp hr
    exact congrFun (h s s' hs') i

instance frames_fail : Frames loc val (fail : Traced σ A α) where
  keeps s r hr := by simp [fail] at hr

instance frames_ite {c : Prop} [Decidable c] {m m' : Traced σ A α} [hm : Frames loc val m]
    [hm' : Frames loc val m'] : Frames loc val (if c then m else m') := by
  split_ifs
  · exact hm
  · exact hm'

/-- **The frame**: what lies outside the accesses of a computation is kept. -/
theorem Within.keeps {m : Traced σ A α} [hf : Frames loc val m] (hw : Within V m Q s)
    (he : m.erase s = some (s', a)) {i : ι} (hi : ∀ x, V x → loc x ≠ i) : val s' i = val s i := by
  obtain ⟨r, hr, hra⟩ := Option.map_eq_some_iff.mp he
  rw [← (Prod.mk.inj hra).1]
  exact hf.keeps s r hr i fun x hx => hi x ((hw r hr).1 x hx)

end Frames

end Traced
