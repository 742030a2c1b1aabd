import TemporalPlanning.Proofs.Feasibility

namespace TemporalPlanning

structure Constraint (ν : Type) where
  first : ν
  second : ν
  lower : Option Rat
  upper : Option Rat
  deriving DecidableEq

variable {ν : Type}

def Constraint.Holds (c : Constraint ν) (t : ν → Rat) : Prop :=
  Within c.lower c.upper (t c.second - t c.first)

def Constraint.Mentions (c : Constraint ν) (a : ν) : Prop := a = c.first ∨ a = c.second

def Solution (cs : List (Constraint ν)) (t : ν → Rat) : Prop := ∀ c ∈ cs, c.Holds t

namespace Network

variable [DecidableEq ν] {net : Network ν} {C : (ν → Rat) → Prop}

def addAll (net : Network ν) (cs : List (Constraint ν)) : Network ν :=
  cs.foldl (fun net c => net.add c.first c.second c.lower c.upper) net

theorem addAll_append (cs ds : List (Constraint ν)) :
    net.addAll (cs ++ ds) = (net.addAll cs).addAll ds := List.foldl_append

theorem Represents.addAll (h : net.Represents C) (cs : List (Constraint ν)) :
    (net.addAll cs).Represents fun t => C t ∧ Solution cs t :=
  Represents.foldl cs (fun c _ _ _ h => h.add c.first c.second c.lower c.upper) h

theorem represents_sequence (cs : List (Constraint ν)) :
    ((empty : Network ν).addAll cs).Represents (Solution cs) :=
  (Represents.empty.addAll cs).congr fun t => by simp

theorem addAll_of_failed (hf : net.failure ≠ none) (cs : List (Constraint ν)) :
    net.addAll cs = net := by
  induction cs with
  | nil => rfl
  | cons c cs ih =>
      change (net.add c.first c.second c.lower c.upper).addAll cs = net
      rw [add_of_failed hf, ih]

theorem failure_of_addAll {cs : List (Constraint ν)} (hn : (net.addAll cs).failure = none) :
    net.failure = none := by
  by_contra hf
  rw [addAll_of_failed hf] at hn
  exact hf hn

theorem model_eq_level (hn : net.failure = none) {a : ν} (ha : a ∈ net.nodes) :
    net.model a = some (level net.potentials a) := by
  have hg : net.potentials.get? a ≠ none := fun h => OrderedMap.get?_eq_none_iff.mp h ha
  obtain ⟨q, hq⟩ := Option.ne_none_iff_exists'.mp hg
  simp [model, hn, level, hq]

theorem mem_nodes_addAll (h : net.Represents C) (cs : List (Constraint ν))
    (hn : (net.addAll cs).failure = none) (a : ν) :
    a ∈ (net.addAll cs).nodes ↔ a ∈ net.nodes ∨ ∃ c ∈ cs, c.Mentions a := by
  induction cs generalizing net C with
  | nil => simp [addAll]
  | cons c cs ih =>
      have h0 : net.failure = none := failure_of_addAll hn
      have hx := ((h.exact h0).1.add h0 c.first c.second c.lower c.upper).nodes a
      rw [show net.addAll (c :: cs) = (net.add c.first c.second c.lower c.upper).addAll cs from rfl]
        at hn ⊢
      rw [ih (h.add _ _ _ _) hn, hx, List.exists_mem_cons_iff, or_assoc]
      rfl

theorem first_clash (h : net.Represents C) (h0 : net.failure = none) (cs : List (Constraint ν))
    (hn : (net.addAll cs).failure ≠ none) :
    ∃ before c after, cs = before ++ c :: after ∧ (net.addAll before).failure = none ∧
      (net.addAll (before ++ [c])).failure = some (c.first, c.second) := by
  induction cs generalizing net C with
  | nil => exact absurd h0 hn
  | cons c cs ih =>
      have hc := (h.exact h0).1.add h0 c.first c.second c.lower c.upper
      rcases hc.outcome with ⟨hr, -, -⟩ | ⟨hr, -⟩
      · obtain ⟨before, d, after, rfl, hb, hd⟩ := ih (h.add _ _ _ _) hr hn
        exact ⟨c :: before, d, after, rfl, hb, hd⟩
      · exact ⟨[], c, cs, rfl, h0, hr⟩

theorem addAll_decides (cs : List (Constraint ν)) :
    let net := (empty : Network ν).addAll cs
    (net.check = true ↔ ∃ t, Solution cs t) ∧
    (net.check = true → ∃ t, Solution cs t ∧
      (∀ a, a ∈ net.nodes ↔ ∃ c ∈ cs, c.Mentions a) ∧ ∀ a ∈ net.nodes, net.model a = some (t a)) ∧
    (net.check = false → ∃ before c after, cs = before ++ c :: after ∧
      (∃ t, Solution before t) ∧ (¬ ∃ t, Solution (before ++ [c]) t) ∧
      net.witness = some (c.first, c.second) ∧
      ∀ later, (empty.addAll (before ++ c :: later)).nodes = (empty.addAll (before ++ [c])).nodes ∧
        (empty.addAll (before ++ c :: later)).edges = (empty.addAll (before ++ [c])).edges ∧
        (empty.addAll (before ++ c :: later)).witness = some (c.first, c.second)) := by
  have hall := represents_sequence cs
  refine ⟨hall.check_iff, fun hc => ?_, fun hc => ?_⟩
  · have hn := Option.isNone_iff_eq_none.mp hc
    obtain ⟨hf, hS⟩ := hall.exact hn
    refine ⟨_, (hS _).mp hf.admits, fun a => ?_, fun a ha => model_eq_level hn ha⟩
    rw [mem_nodes_addAll Represents.empty cs hn]
    simp [Network.empty, Network.nodes, OrderedMap.keys, OrderedMap.empty]
  · have hn : ((empty : Network ν).addAll cs).failure ≠ none := fun h => by simp [check, h] at hc
    obtain ⟨before, c, after, rfl, hb, hd⟩ := first_clash Represents.empty rfl cs hn
    have hfail : ((empty : Network ν).addAll (before ++ [c])).failure ≠ none := by simp [hd]
    have hsame (later : List (Constraint ν)) :
        (empty : Network ν).addAll (before ++ c :: later) = empty.addAll (before ++ [c]) := by
      rw [List.append_cons, addAll_append, addAll_of_failed hfail]
    refine ⟨before, c, after, rfl, ?_, ?_, ?_, fun later => ?_⟩
    · exact (represents_sequence before).check_iff.mp (Option.isNone_iff_eq_none.mpr hb)
    · rintro ⟨t, ht⟩
      exact (represents_sequence (before ++ [c])).refuted hfail t ht
    · rw [witness, hsame, hd]
    · rw [witness, hsame, hd]
      exact ⟨rfl, rfl, rfl⟩

end Network

end TemporalPlanning
