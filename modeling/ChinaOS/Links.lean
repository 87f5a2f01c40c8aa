import Mathlib.Tactic

/-!
Chains in a table of links: `next c` is the successor of `c`, if there is one.

* `Linked next c d`: the links lead from `c` to `d`. `linked_iff`: one link at a time, where the
  link that is followed may be cut, so that a walk that cuts behind itself meets all of them
  even if they run in a circle.
* `Chain next l`: the links lead along `l` and end there. `Chain.nodup`: none is met twice.
* `Chain.extend`, `Chain.cut`: a chain that is lengthened, and one that is cut in two.
-/

namespace Links

variable {α : Type*} {next next' : α → Option α} {c d : α} {l r : List α}

/-- The links lead from one to the other. -/
def Linked (next : α → Option α) : α → α → Prop :=
  Relation.ReflTransGen fun c d => next c = some d

/-- The links lead along the list, and there is no link at its end. -/
structure Chain (next : α → Option α) (l : List α) : Prop where
  ne_nil : l ≠ []
  links : l.IsChain fun c d => next c = some d
  last : ∀ c ∈ l.getLast?, next c = none

section Linked

variable [DecidableEq α]

/-- A link that leads on is not needed after it was followed. -/
theorem linked_iff :
    Linked next c d ↔ d = c ∨ ∃ e, next c = some e ∧ Linked (Function.update next c none) e d := by
  constructor
  · intro h
    induction h with
    | refl => exact Or.inl rfl
    | @tail b d _ hbd ih =>
        refine Or.inr ?_
        by_cases hbc : b = c
        · exact ⟨d, hbc ▸ hbd, .refl⟩
        · obtain ⟨e, he, hb⟩ := ih.resolve_left hbc
          exact ⟨e, he, hb.tail (by rwa [Function.update_of_ne hbc])⟩
  · rintro (rfl | ⟨e, he, h⟩)
    · exact .refl
    · refine .head he (Relation.ReflTransGen.mono (fun a b hab => ?_) _ _ h)
      by_cases hac : a = c
      · rw [hac, Function.update_self] at hab
        simp at hab
      · rwa [Function.update_of_ne hac] at hab

lemma linked_of_none (h : next c = none) : Linked next c d ↔ d = c := by
  rw [linked_iff, h]
  simp

end Linked

namespace Chain

lemma singleton_iff : Chain next [c] ↔ next c = none :=
  ⟨fun h => h.last c rfl, fun h => ⟨List.cons_ne_nil _ _, .singleton _, by simpa using h⟩⟩

lemma cons_cons_iff : Chain next (c :: d :: l) ↔ next c = some d ∧ Chain next (d :: l) := by
  refine ⟨fun h => ?_, fun ⟨hcd, h⟩ => ?_⟩
  · obtain ⟨hcd, hl⟩ := List.isChain_cons_cons.mp h.links
    refine ⟨hcd, List.cons_ne_nil _ _, hl, fun e he => h.last e ?_⟩
    rwa [List.getLast?_cons_cons]
  · refine ⟨List.cons_ne_nil _ _, List.isChain_cons_cons.mpr ⟨hcd, h.links⟩, fun e he => h.last e ?_⟩
    rwa [List.getLast?_cons_cons] at he

lemma congr (h : Chain next l) (heq : ∀ c ∈ l, next' c = next c) : Chain next' l := by
  refine ⟨h.ne_nil, (List.IsChain.iff_of_mem_imp fun a b ha _ => ?_).mp h.links, fun c hc => ?_⟩
  · rw [heq a ha]
  · rw [heq c (List.mem_of_getLast? hc), h.last c hc]

/-- The end of a chain is a chain. -/
lemma of_append (h : Chain next (l ++ c :: r)) : Chain next (c :: r) :=
  ⟨List.cons_ne_nil _ _, h.links.right_of_append, fun d hd => h.last d (by
    rwa [List.getLast?_append_of_ne_nil _ (List.cons_ne_nil _ _)])⟩

/-- The chain from an element is determined. -/
lemma unique (h : Chain next (c :: l)) (h' : Chain next (c :: r)) : l = r := by
  induction l generalizing c r with
  | nil =>
      cases r with
      | nil => rfl
      | cons d r =>
          rw [singleton_iff] at h
          rw [cons_cons_iff, h] at h'
          simp at h'
  | cons d l ih =>
      cases r with
      | nil =>
          rw [singleton_iff] at h'
          rw [cons_cons_iff, h'] at h
          simp at h
      | cons e r =>
          rw [cons_cons_iff] at h h'
          obtain rfl : d = e := Option.some.inj (h.1.symm.trans h'.1)
          rw [ih h.2 h'.2]

/-- **No element of a chain is met twice.** -/
theorem nodup (h : Chain next l) : l.Nodup := by
  induction l with
  | nil => exact List.nodup_nil
  | cons c l ih =>
      cases l with
      | nil => exact List.nodup_singleton c
      | cons d l =>
          have htail := (cons_cons_iff.mp h).2
          refine List.nodup_cons.mpr ⟨fun hmem => ?_, ih htail⟩
          -- the chain from the second meeting on would be the whole chain
          obtain ⟨a, b, hab⟩ := List.append_of_mem hmem
          have hb : Chain next (c :: b) := (hab ▸ htail).of_append
          have hlen := congrArg List.length (h.unique hb)
          rw [hab, List.length_append, List.length_cons] at hlen
          omega

/-- What a chain leads to is on it. -/
lemma linked_iff_mem (h : Chain next (c :: l)) : Linked next c d ↔ d ∈ c :: l := by
  induction l generalizing c with
  | nil =>
      refine ⟨fun hd => ?_, fun hd => ?_⟩
      · cases hd.cases_head with
        | inl heq => exact heq ▸ List.mem_cons_self
        | inr hex =>
            obtain ⟨e, he, -⟩ := hex
            rw [singleton_iff.mp h] at he
            simp at he
      · rw [List.mem_singleton.mp hd]
        exact .refl
  | cons e l ih =>
      obtain ⟨he, hl⟩ := cons_cons_iff.mp h
      rw [List.mem_cons, ← ih hl]
      refine ⟨fun hd => ?_, fun hd => ?_⟩
      · cases hd.cases_head with
        | inl heq => exact Or.inl heq.symm
        | inr hex =>
            obtain ⟨e', he', hd⟩ := hex
            obtain rfl : e' = e := Option.some.inj (he'.symm.trans he)
            exact Or.inr hd
      · rcases hd with rfl | hd
        · exact .refl
        · exact .head he hd

variable [DecidableEq α]

/-- **A chain is lengthened.** -/
theorem extend (h : Chain next (l ++ [c])) (hd : d ∉ l ++ [c]) :
    Chain (Function.update (Function.update next d none) c (some d)) (l ++ [c, d]) := by
  have hdc : d ≠ c := fun he => hd (by rw [he]; simp)
  have hc : next c = none := h.last c (by simp)
  refine ⟨by simp, ?_, fun e he => ?_⟩
  · rw [List.isChain_split]
    refine ⟨h.links.imp_of_mem_imp fun a b ha _ hab => ?_, ?_⟩
    · have hac : a ≠ c := fun he => by simp [he, hc] at hab
      have had : a ≠ d := fun he => hd (he ▸ ha)
      rwa [Function.update_of_ne hac, Function.update_of_ne had]
    · simp
  · obtain rfl : d = e := by simpa using he
    rw [Function.update_of_ne hdc, Function.update_self]

/-- **A chain is cut in two.** -/
theorem cut (h : Chain next (l ++ c :: d :: r)) :
    Chain (Function.update next c none) (l ++ [c]) ∧ Chain next (d :: r) := by
  obtain ⟨hcd, hr⟩ := cons_cons_iff.mp h.of_append
  have hd : d ∉ l ++ [c] := fun hmem => by
    have hnodup := h.nodup
    rw [← List.singleton_append, ← List.append_assoc] at hnodup
    exact List.disjoint_of_nodup_append hnodup hmem List.mem_cons_self
  refine ⟨⟨by simp, ?_, fun e he => ?_⟩, hr⟩
  · refine (List.isChain_split.mp h.links).1.imp_of_mem_imp fun a b _ hb hab => ?_
    have hac : a ≠ c := by
      rintro rfl
      exact hd (Option.some.inj (hab.symm.trans hcd) ▸ hb)
    rwa [Function.update_of_ne hac]
  · obtain rfl : c = e := by simpa using he
    exact Function.update_self ..

end Chain

end Links
