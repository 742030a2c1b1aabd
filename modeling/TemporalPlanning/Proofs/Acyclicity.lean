import Mathlib.Data.Fintype.Card
import Mathlib.Data.Fintype.EquivFin
import Mathlib.Data.Fintype.Sets
import Mathlib.Logic.Relation
import Mathlib.Order.WellFounded
import TemporalPlanning.Proofs.Linearizations

namespace TemporalPlanning.PartialPlan

variable {σ : Type} [DecidableEq σ] {ordering : OrderedMap σ (List σ)} {remaining : List σ}
  {n : Nat}

def Mentions (ordering : OrderedMap σ (List σ)) (a : σ) : Prop :=
  a ∈ ordering.keys ∨ ∃ b, Declares ordering b a

def Cyclic (ordering : OrderedMap σ (List σ)) : Prop :=
  ∃ a, Relation.TransGen (Declares ordering) a a

theorem exists_ready (h : ¬ Cyclic ordering) (hne : remaining ≠ []) :
    ∃ a ∈ remaining, (ofEntries ordering).isReady remaining a = true := by
  let before (a b : { a // a ∈ remaining }) : Prop := Relation.TransGen (Declares ordering) a.1 b.1
  have : IsTrans _ before := ⟨fun _ _ _ hab hbc => hab.trans hbc⟩
  have : Std.Irrefl before := ⟨fun a ha => h ⟨a.1, ha⟩⟩
  have hwf : WellFounded before := Finite.wellFounded_of_trans_of_irrefl before
  obtain ⟨first, hfirst⟩ := List.exists_mem_of_ne_nil remaining hne
  obtain ⟨a, -, hmin⟩ := hwf.has_min Set.univ ⟨⟨first, hfirst⟩, trivial⟩
  refine ⟨a.1, a.2, isReady_iff.mpr ?_⟩
  intro b hb
  apply Bool.eq_false_iff.mpr
  intro hba
  exact hmin ⟨b, hb⟩ trivial (.single (precedes_ofEntries.mp hba))

theorem length_earliestFirst (h : ¬ Cyclic ordering) (hn : remaining.length = n) :
    ((ofEntries ordering).earliestFirst n remaining).length = n := by
  induction n generalizing remaining with
  | zero => rfl
  | succ n ih =>
      rw [earliestFirst]
      cases hfind : remaining.find? ((ofEntries ordering).isReady remaining) with
      | none =>
          have hne : remaining ≠ [] := List.ne_nil_of_length_eq_add_one hn
          obtain ⟨a, ha, hready⟩ := exists_ready h hne
          exact absurd hready (List.find?_eq_none.mp hfind a ha)
      | some a =>
          have ha : a ∈ remaining := List.mem_of_find?_eq_some hfind
          have hlength : (remaining.erase a).length = n := by
            rw [List.length_erase_of_mem ha, hn]
            rfl
          rw [List.length_cons, ih hlength]

theorem ofOrdering_of_acyclic (label : σ → String) (h : ¬ Cyclic ordering) :
    ofOrdering label ordering = .ok (ofEntries ordering) := by
  apply ofOrdering_ok.mpr
  refine ⟨rfl, ?_, ?_⟩
  · intro a ha
    exact h ⟨a, .single ha⟩
  · rw [toSequence_eq (grounded_ofEntries ordering)]
    exact length_earliestFirst h rfl

theorem linearizes_toSequence {p : PartialPlan σ} (h : p.WellFormed) : p.Linearizes p.toSequence :=
  (mem_linearizations_iff h).mp (List.mem_of_head? (head_linearizations h))

theorem acyclic_of_ofOrdering {label : σ → String} {p : PartialPlan σ}
    (h : ofOrdering label ordering = .ok p) : ¬ Cyclic ordering := by
  have hordered := (linearizes_toSequence (wellFormed_ofOrdering h)).ordered
  have hpath (a b : σ) (hab : Relation.TransGen (Declares ordering) a b) :
      p.toSequence.idxOf a < p.toSequence.idxOf b := by
    induction hab with
    | single hab => exact hordered _ _ ((precedes_ofOrdering h).mpr hab)
    | tail _ hbc ih => exact ih.trans (hordered _ _ ((precedes_ofOrdering h).mpr hbc))
  rintro ⟨a, ha⟩
  exact absurd (hpath a a ha) (lt_irrefl _)

theorem kind_of_ofOrdering {label : σ → String} {f : Fault}
    (h : ofOrdering label ordering = .error f) : f.kind = .validation := by
  unfold ofOrdering at h
  dsimp only at h
  split at h
  · rw [← Except.error.inj h]
    rfl
  · split at h
    · simp at h
    · rw [← Except.error.inj h]
      rfl

theorem ofOrdering_decides (label : σ → String) (ordering : OrderedMap σ (List σ)) :
    ((∃ f, ofOrdering label ordering = .error f ∧ f.kind = .validation) ↔ Cyclic ordering) ∧
    (¬ Cyclic ordering ↔ ∃ p, ofOrdering label ordering = .ok p ∧ p.toSequence.Nodup ∧
      (∀ a, a ∈ p.toSequence ↔ Mentions ordering a) ∧
      ∀ a b, Declares ordering a b → p.toSequence.idxOf a < p.toSequence.idxOf b) := by
  have haccepts : ¬ Cyclic ordering ↔ ∃ p, ofOrdering label ordering = .ok p := by
    constructor
    · intro h
      exact ⟨_, ofOrdering_of_acyclic label h⟩
    · rintro ⟨p, hp⟩
      exact acyclic_of_ofOrdering hp
  constructor
  · constructor
    · rintro ⟨f, hf, -⟩
      by_contra hacyclic
      obtain ⟨p, hp⟩ := haccepts.mp hacyclic
      exact nomatch hf.symm.trans hp
    · intro hcyclic
      cases hresult : ofOrdering label ordering with
      | ok p => exact absurd hcyclic (acyclic_of_ofOrdering hresult)
      | error f => exact ⟨f, rfl, kind_of_ofOrdering hresult⟩
  · rw [haccepts]
    constructor
    · rintro ⟨p, hp⟩
      have hwf := wellFormed_ofOrdering hp
      obtain ⟨hperm, hordered⟩ := linearizes_toSequence hwf
      refine ⟨p, hp, hperm.nodup_iff.mpr hwf.nodup, ?_, ?_⟩
      · intro a
        obtain ⟨rfl, -⟩ := ofOrdering_ok.mp hp
        rw [hperm.mem_iff]
        exact mem_ofEntries
      · intro a b hab
        exact hordered a b ((precedes_ofOrdering hp).mpr hab)
    · rintro ⟨p, hp, -⟩
      exact ⟨p, hp⟩

end TemporalPlanning.PartialPlan
