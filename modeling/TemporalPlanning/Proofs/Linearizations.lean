import Mathlib.Data.List.Basic
import Mathlib.Data.List.Nodup
import TemporalPlanning.Proofs.Attempts
import TemporalPlanning.Proofs.ReadySteps

namespace TemporalPlanning.PartialPlan

variable {σ : Type} [DecidableEq σ] {p : PartialPlan σ} {a b : σ} {l remaining : List σ} {n : Nat}

structure Linearizes (p : PartialPlan σ) (l : List σ) : Prop where
  perm : l.Perm p.steps
  ordered : ∀ a b, p.precedes a b = true → l.idxOf a < l.idxOf b

def Earlier (p : PartialPlan σ) : List σ → List σ → Prop :=
  List.Lex fun a b => p.steps.idxOf a < p.steps.idxOf b

structure WellFormed (p : PartialPlan σ) : Prop extends p.Grounded where
  irreflexive : ∀ a, p.precedes a a = false
  complete : p.toSequence.length = p.steps.length

def linearizationsFrom (p : PartialPlan σ) : Nat → List σ → List (List σ)
  | 0, _ => [[]]
  | n + 1, remaining =>
      (remaining.filter (p.isReady remaining)).flatMap fun a =>
        (linearizationsFrom p n (remaining.erase a)).map (a :: ·)

def linearizations (p : PartialPlan σ) : List (List σ) :=
  p.linearizationsFrom p.steps.length p.steps

section Construction

theorem nodup_eraseDups : (l : List σ) → l.eraseDups.Nodup
  | [] => by simp
  | a :: l => by
      rw [List.eraseDups_cons, List.nodup_cons]
      exact ⟨by simp [List.mem_eraseDups], nodup_eraseDups (l.filter fun b => !b == a)⟩
  termination_by l => l.length
  decreasing_by exact Nat.lt_succ_of_le (List.length_filter_le _ _)

variable {label : σ → String} {ordering : OrderedMap σ (List σ)}

def Declares (ordering : OrderedMap σ (List σ)) (a b : σ) : Prop :=
  ∃ bs, (a, bs) ∈ ordering.entries ∧ b ∈ bs

theorem precedes_ofEntries : (ofEntries ordering).precedes a b = true ↔ Declares ordering a b := by
  simp only [precedes, successorsOf, ofEntries, OrderedMap.get?_mapValues, List.contains_iff_mem,
    Declares, OrderedMap.mem_entries_iff]
  cases ordering.get? a with
  | none => simp
  | some bs => simp [List.mem_eraseDups]

theorem mem_ofEntries : a ∈ (ofEntries ordering).steps ↔
    a ∈ ordering.keys ∨ ∃ b, Declares ordering b a := by
  simp only [ofEntries, List.mem_eraseDups, List.mem_flatMap, OrderedMap.keys, List.mem_map,
    Declares, List.mem_cons]
  constructor
  · rintro ⟨e, he, rfl | ha⟩
    · exact .inl ⟨e, he, rfl⟩
    · exact .inr ⟨e.1, e.2, he, ha⟩
  · rintro (⟨e, he, rfl⟩ | ⟨b, bs, he, ha⟩)
    · exact ⟨e, he, .inl rfl⟩
    · exact ⟨(b, bs), he, .inr ha⟩

theorem grounded_ofEntries (ordering : OrderedMap σ (List σ)) : (ofEntries ordering).Grounded where
  nodup := nodup_eraseDups _
  known a b hab := by
    obtain ⟨bs, he, hb⟩ := precedes_ofEntries.mp hab
    exact ⟨mem_ofEntries.mpr (.inl (List.mem_map_of_mem (f := Prod.fst) he)),
      mem_ofEntries.mpr (.inr ⟨a, bs, he, hb⟩)⟩
  distinct a := by
    rw [successorsOf, ofEntries, OrderedMap.get?_mapValues]
    cases ordering.get? a with
    | none => exact List.nodup_nil
    | some bs => exact nodup_eraseDups bs

theorem find?_selfOrdered : (ordering.entries.find? fun e => e.2.contains e.1) = none ↔
    ∀ a, ¬ Declares ordering a a := by
  rw [List.find?_eq_none]
  constructor
  · rintro h a ⟨bs, he, ha⟩
    exact h (a, bs) he (List.contains_iff_mem.mpr ha)
  · intro h e he hself
    exact h e.1 ⟨e.2, he, List.contains_iff_mem.mp hself⟩

theorem ofOrdering_ok : ofOrdering label ordering = .ok p ↔ ofEntries ordering = p ∧
    (∀ a, ¬ Declares ordering a a) ∧
      (ofEntries ordering).toSequence.length = (ofEntries ordering).steps.length := by
  rw [← find?_selfOrdered, ofOrdering]
  cases hself : ordering.entries.find? fun e => e.2.contains e.1 with
  | some e => simp
  | none =>
      dsimp only
      split
      · rename_i hlength
        simp [hlength]
      · rename_i hlength
        simp [hlength]

theorem precedes_ofOrdering (h : ofOrdering label ordering = .ok p) :
    p.precedes a b = true ↔ Declares ordering a b := by
  obtain ⟨rfl, -⟩ := ofOrdering_ok.mp h
  exact precedes_ofEntries

theorem wellFormed_ofOrdering (h : ofOrdering label ordering = .ok p) : p.WellFormed := by
  obtain ⟨rfl, hself, hlength⟩ := ofOrdering_ok.mp h
  refine ⟨grounded_ofEntries ordering, ?_, hlength⟩
  intro a
  exact Bool.eq_false_iff.mpr fun ha => hself a (precedes_ofEntries.mp ha)

end Construction

section Enumeration

theorem mem_linearizationsFrom (hn : remaining.length = n) :
    l ∈ p.linearizationsFrom n remaining ↔ l.Perm remaining ∧
      (l.Pairwise fun a b => p.precedes b a = false) ∧ ∀ a ∈ l, p.precedes a a = false := by
  induction n generalizing l remaining with
  | zero =>
      obtain rfl := List.eq_nil_of_length_eq_zero hn
      simp only [linearizationsFrom, List.mem_singleton, List.perm_nil]
      constructor
      · rintro rfl
        simp
      · exact And.left
  | succ n ih =>
      simp only [linearizationsFrom, List.mem_flatMap, List.mem_filter, List.mem_map]
      constructor
      · rintro ⟨a, ⟨ha, hready⟩, rest, hrest, rfl⟩
        rw [ih (by rw [List.length_erase_of_mem ha, hn]; rfl)] at hrest
        obtain ⟨hperm, hpair, hirrefl⟩ := hrest
        have hall : ∀ b ∈ remaining, p.precedes b a = false := by
          simpa [isReady] using hready
        refine ⟨(hperm.cons a).trans (List.perm_cons_erase ha).symm, ?_, ?_⟩
        · refine List.pairwise_cons.mpr ⟨fun b hb => hall b ?_, hpair⟩
          exact List.mem_of_mem_erase (hperm.mem_iff.mp hb)
        · exact List.forall_mem_cons.mpr ⟨hall a ha, hirrefl⟩
      · rintro ⟨hperm, hpair, hirrefl⟩
        cases l with
        | nil =>
            rw [← hperm.length_eq] at hn
            simp at hn
        | cons a rest =>
            obtain ⟨ha, hrest⟩ := List.cons_perm_iff_perm_erase.mp hperm
            rw [List.pairwise_cons] at hpair
            rw [List.forall_mem_cons] at hirrefl
            refine ⟨a, ⟨ha, ?_⟩, rest, ?_, rfl⟩
            · simp only [isReady, List.all_eq_true, Bool.not_eq_true']
              intro b hb
              rcases List.mem_cons.mp (hperm.mem_iff.mpr hb) with rfl | hb
              · exact hirrefl.1
              · exact hpair.1 b hb
            · rw [ih (by rw [List.length_erase_of_mem ha, hn]; rfl)]
              exact ⟨hrest, hpair.2, hirrefl.2⟩

theorem mem_linearizations_iff (h : p.WellFormed) : l ∈ p.linearizations ↔ p.Linearizes l := by
  rw [linearizations, mem_linearizationsFrom rfl]
  constructor
  · rintro ⟨hperm, hpair, -⟩
    refine ⟨hperm, fun a b hab => ?_⟩
    obtain ⟨ha, hb⟩ := h.known a b hab
    have hi := List.idxOf_lt_length_of_mem (hperm.mem_iff.mpr ha)
    have hj := List.idxOf_lt_length_of_mem (hperm.mem_iff.mpr hb)
    rcases Nat.lt_trichotomy (l.idxOf a) (l.idxOf b) with hlt | heq | hgt
    · exact hlt
    · have hba : b = a := (List.idxOf_inj (hperm.mem_iff.mpr ha)).mp heq |>.symm
      simp [hba, h.irreflexive a] at hab
    · have hnot := List.pairwise_iff_getElem.mp hpair _ _ hj hi hgt
      simp [hab] at hnot
  · rintro ⟨hperm, hordered⟩
    have hnodup : l.Nodup := hperm.nodup_iff.mpr h.nodup
    refine ⟨hperm, ?_, fun a _ => h.irreflexive a⟩
    refine List.pairwise_iff_getElem.mpr fun i j hi hj hij => Bool.eq_false_iff.mpr fun hba => ?_
    have hlt := hordered _ _ hba
    rw [hnodup.idxOf_getElem, hnodup.idxOf_getElem] at hlt
    omega

theorem earlier_linearizationsFrom (hsorted : remaining.Sublist p.steps) (hnodup : p.steps.Nodup) :
    (p.linearizationsFrom n remaining).Pairwise p.Earlier := by
  induction n generalizing remaining with
  | zero => exact List.pairwise_singleton _ _
  | succ n ih =>
      have hready : (remaining.filter (p.isReady remaining)).Pairwise fun a b =>
          p.steps.idxOf a < p.steps.idxOf b := by
        exact (pairwise_steps hnodup).sublist (List.filter_sublist.trans hsorted)
      refine List.pairwise_flatMap.mpr ⟨fun a _ => ?_, hready.imp fun {a b} hab => ?_⟩
      · have hrest := ih (List.erase_sublist (a := a) |>.trans hsorted)
        exact List.pairwise_map.mpr (hrest.imp List.Lex.cons)
      · intro l hl l' hl'
        obtain ⟨rest, -, rfl⟩ := List.mem_map.mp hl
        obtain ⟨rest', -, rfl⟩ := List.mem_map.mp hl'
        exact List.Lex.rel hab

theorem head_linearizationsFrom (hn : (p.earliestFirst n remaining).length = n) :
    (p.linearizationsFrom n remaining).head? = some (p.earliestFirst n remaining) := by
  induction n generalizing remaining with
  | zero => rfl
  | succ n ih =>
      rw [earliestFirst] at hn ⊢
      cases hfind : remaining.find? (p.isReady remaining) with
      | none => simp [hfind] at hn
      | some a =>
          simp only [hfind, List.length_cons, Nat.add_right_cancel_iff] at hn ⊢
          rw [← List.head?_filter] at hfind
          obtain ⟨others, hothers⟩ := List.head?_eq_some_iff.mp hfind
          rw [linearizationsFrom, hothers, List.flatMap_cons, List.head?_append, List.head?_map,
            ih hn]
          rfl

theorem head_linearizations (h : p.WellFormed) : p.linearizations.head? = some p.toSequence := by
  have hsequence := toSequence_eq h.toGrounded
  rw [hsequence]
  exact head_linearizationsFrom (hsequence ▸ h.complete)

theorem linearizations_ne_nil (h : p.WellFormed) : p.linearizations ≠ [] := by
  intro hnil
  have hhead := head_linearizations h
  simp [hnil] at hhead

end Enumeration

section Visiting

variable {m : Type → Type} [Monad m] [LawfulMonad m] {β α γ : Type}

theorem visitEach_append (visit : α → β → m (ForInStep β)) (xs ys : List α) (b : β) :
    visitEach visit (xs ++ ys) b = (do
      match ← visitEach visit xs b with
      | .done b => pure (.done b)
      | .yield b => visitEach visit ys b) := by
  induction xs generalizing b with
  | nil => simp [visitEach]
  | cons x xs ih =>
      simp only [List.cons_append, visitEach, bind_assoc]
      refine bind_congr fun step => ?_
      cases step with
      | done b => simp
      | yield b => exact ih b

theorem visitEach_flatMap (visit : γ → β → m (ForInStep β)) (f : α → List γ) (xs : List α) (b : β) :
    visitEach (fun x => visitEach visit (f x)) xs b = visitEach visit (xs.flatMap f) b := by
  induction xs generalizing b with
  | nil => rfl
  | cons x xs ih =>
      rw [List.flatMap_cons, visitEach_append, visitEach]
      refine bind_congr fun step => ?_
      cases step with
      | done b => rfl
      | yield b => exact ih b

theorem visitEach_singleton (visit : α → β → m (ForInStep β)) (a : α) (b : β) :
    visitEach visit [a] b = visit a b := by
  refine Eq.trans (bind_congr fun step => ?_) (bind_pure (visit a b))
  cases step with
  | done b => rfl
  | yield b => rfl

theorem onValue_onValue (f : α → β) (g : β → γ) (x : ForInStep α) :
    onValue g (onValue f x) = onValue (g ∘ f) x := by
  cases x <;> rfl

theorem onValue_fst (s : γ) (x : ForInStep α) : onValue Prod.fst (onValue (·, s) x) = x := by
  cases x <;> rfl

theorem visitEach_onValue (visit : α → β → m (ForInStep β)) {s : γ} {xs : List α}
    {visit' : α → β × γ → m (ForInStep (β × γ))}
    (h : ∀ x ∈ xs, ∀ b, visit' x (b, s) = onValue (·, s) <$> visit x b) (b : β) :
    visitEach visit' xs (b, s) = onValue (·, s) <$> visitEach visit xs b := by
  induction xs generalizing b with
  | nil => simp [visitEach, onValue]
  | cons x xs ih =>
      obtain ⟨hx, hxs⟩ := List.forall_mem_cons.mp h
      rw [visitEach, visitEach, hx, map_bind, bind_map_left]
      refine bind_congr fun step => ?_
      cases step with
      | done b => simp [onValue]
      | yield b => exact ih hxs b

theorem visitEach_filter (visit : α → β → m (ForInStep β)) (accepts : α → Bool) (xs : List α)
    (b : β) : visitEach (fun x b => if accepts x then visit x b else pure (.yield b)) xs b =
      visitEach visit (xs.filter accepts) b := by
  induction xs generalizing b with
  | nil => rfl
  | cons x xs ih =>
      rw [visitEach]
      by_cases hx : accepts x = true
      · rw [if_pos hx, List.filter_cons_of_pos hx, visitEach]
        refine bind_congr fun step => ?_
        cases step with
        | done b => rfl
        | yield b => exact ih b
      · rw [if_neg hx, pure_bind, List.filter_cons_of_neg hx]
        exact ih b

end Visiting

section Walk

structure Search.Tracks (p : PartialPlan σ) (remaining : List σ) (s : Search σ) : Prop where
  unplaced : remaining = p.steps.filter fun a => !s.placed.contains a
  counted : p.Counted remaining s.counts
  keys : ∀ a ∈ p.steps, a ∈ s.counts.keys

namespace Search.Tracks

variable {s : Search σ}

theorem filter_admits (h : s.Tracks p remaining) :
    p.steps.filter s.admits = remaining.filter (p.isReady remaining) := by
  have hready : remaining.filter (p.isReady remaining) =
      remaining.filter fun a => countOf s.counts a = 0 := by
    apply List.filter_congr
    intro a _
    rw [Bool.eq_iff_iff, decide_eq_true_iff]
    exact h.counted.isReady_iff.symm
  rw [hready, h.unplaced, List.filter_filter]
  apply List.filter_congr
  intro a _
  rw [admits, Bool.and_comm]

theorem keys_successors (h : s.Tracks p remaining) (hp : p.Grounded) (a : σ) :
    ∀ b ∈ p.successorsOf a, b ∈ s.counts.keys :=
  fun b hb => h.keys b (hp.known a b (precedes_iff.mpr hb)).2

theorem place (h : s.Tracks p remaining) (hp : p.Grounded) (ha : a ∈ remaining) :
    (s.place p a).Tracks p (remaining.erase a) where
  unplaced := by
    have hnodup : remaining.Nodup := by
      rw [h.unplaced]
      exact hp.nodup.filter _
    rw [hnodup.erase_eq_filter, h.unplaced, List.filter_filter]
    apply List.filter_congr
    intro b _
    rw [Bool.eq_iff_iff]
    simp [Search.place, and_comm]
  counted := h.counted.take ha
  keys b hb := by
    rw [Search.place, keys_shiftAll (h.keys_successors hp a)]
    exact h.keys b hb

theorem withdraw_place (h : s.Tracks p remaining) (hp : p.Grounded) (a : σ) :
    (s.place p a).withdraw p a = s := by
  rw [Search.withdraw, Search.place, shiftAll_back (h.keys_successors hp a), List.dropLast_concat]

end Search.Tracks

theorem tracks_start (h : p.Grounded) : (Search.start p).Tracks p p.steps where
  unplaced := by simp [Search.start]
  counted := p.counted_predecessorCounts
  keys _ ha := mem_keys_predecessorCounts h ha

variable {m : Type → Type} [Monad m] [LawfulMonad m] {β : Type} {s : Search σ}

theorem walkFrom_eq (hp : p.Grounded) (visit : List σ → β → m (ForInStep β))
    (h : s.Tracks p remaining) (b : β) : p.walkFrom visit n (b, s) = onValue (·, s) <$>
      visitEach visit ((p.linearizationsFrom n remaining).map (s.placed ++ ·)) b := by
  induction n generalizing s remaining b with
  | zero => simp [walkFrom, linearizationsFrom, visitEach_singleton]
  | succ n ih =>
      let rest (a : σ) : List (List σ) :=
        (p.linearizationsFrom n (remaining.erase a)).map (s.placed ++ [a] ++ ·)
      have hlist : (p.linearizationsFrom (n + 1) remaining).map (s.placed ++ ·) =
          (p.steps.filter s.admits).flatMap rest := by
        rw [h.filter_admits]
        simp [rest, linearizationsFrom, List.map_flatMap, Function.comp_def]
      rw [hlist, ← visitEach_flatMap, ← visitEach_filter, walkFrom]
      apply visitEach_onValue
      intro a ha b
      dsimp only
      by_cases hadmits : s.admits a = true
      · have ha : a ∈ remaining :=
          List.mem_of_mem_filter (h.filter_admits ▸ List.mem_filter.mpr ⟨ha, hadmits⟩)
        -- the search below `a` gives back the state that `place` made, and `withdraw` undoes that
        rw [if_pos hadmits, if_pos hadmits, ih (h.place hp ha), Functor.map_map]
        congr 1
        funext step
        rw [onValue_onValue]
        congr 1
        funext b
        simp [h.withdraw_place hp]
      · rw [if_neg hadmits, if_neg hadmits]
        simp [onValue]

theorem walk_eq (h : p.Grounded) (visit : List σ → β → m (ForInStep β)) (b : β) :
    p.walk visit b = visitEach visit p.linearizations b := by
  rw [walk, walkFrom_eq h visit (tracks_start h)]
  simp [linearizations, Search.start, onValue_fst]

end Walk

section Listing

variable {label : σ → String} {ordering : OrderedMap σ (List σ)}

theorem not_earlier_self (l : List σ) : ¬ p.Earlier l l := by
  intro h
  induction l with
  | nil => exact nomatch h
  | cons a l ih =>
      cases h with
      | rel h => exact absurd h (Nat.lt_irrefl _)
      | cons h => exact ih h

theorem walk_lists (h : ofOrdering label ordering = .ok p) :
    p.steps = (ordering.entries.flatMap fun e => e.1 :: e.2).eraseDups ∧
    ∃ ls : List (List σ),
      (∀ (m : Type → Type) [Monad m] [LawfulMonad m] (β : Type)
        (visit : List σ → β → m (ForInStep β)) (b : β), p.walk visit b = visitEach visit ls b) ∧
      (∀ l, l ∈ ls ↔ l.Perm p.steps ∧ ∀ a b, Declares ordering a b → l.idxOf a < l.idxOf b) ∧
      ls.Nodup ∧ ls.Pairwise p.Earlier ∧ ls.head? = some p.toSequence := by
  have hwf := wellFormed_ofOrdering h
  have hearlier : p.linearizations.Pairwise p.Earlier :=
    earlier_linearizationsFrom (.refl _) hwf.nodup
  obtain ⟨rfl, -⟩ := ofOrdering_ok.mp h
  refine ⟨rfl, _, fun m _ _ β => walk_eq hwf.toGrounded, ?_, ?_, hearlier, head_linearizations hwf⟩
  · intro l
    rw [mem_linearizations_iff hwf]
    constructor
    · rintro ⟨hperm, hordered⟩
      exact ⟨hperm, fun a b hab => hordered a b (precedes_ofEntries.mpr hab)⟩
    · rintro ⟨hperm, hordered⟩
      exact ⟨hperm, fun a b hab => hordered a b (precedes_ofEntries.mp hab)⟩
  · apply hearlier.imp
    rintro l l' hl rfl
    exact not_earlier_self l hl

def forked : OrderedMap Nat (List Nat) := .ofList [(2, [0, 0]), (1, [])]

theorem ofOrdering_forked : ofOrdering Nat.repr forked = .ok (ofEntries forked) := by
  refine ofOrdering_ok.mpr ⟨rfl, find?_selfOrdered.mp rfl, ?_⟩
  rw [toSequence_eq (grounded_ofEntries forked)]
  rfl

theorem walk_lists_forked : ofOrdering Nat.repr forked = .ok (ofEntries forked) ∧
    ∃ ls : List (List Nat),
      (∀ l, l ∈ ls ↔ l.Perm [2, 0, 1] ∧ ∀ a b, Declares forked a b → l.idxOf a < l.idxOf b) ∧
      ls.Nodup ∧ ls.head? = some [2, 0, 1] := by
  obtain ⟨-, ls, -, hmem, hnodup, -, hhead⟩ := walk_lists ofOrdering_forked
  refine ⟨ofOrdering_forked, ls, hmem, hnodup, ?_⟩
  rw [hhead, toSequence_eq (grounded_ofEntries forked)]
  rfl

example : (ofEntries forked).firstLinearizations 4 = [[2, 0, 1], [2, 1, 0], [1, 2, 0]] := by
  decide

end Listing

end TemporalPlanning.PartialPlan
