import TemporalPlanning.Proofs.Spreading

namespace TemporalPlanning

def Within (lower upper : Option Rat) (d : Rat) : Prop :=
  (∀ l ∈ lower, l ≤ d) ∧ ∀ u ∈ upper, d ≤ u

theorem within_lower {l d : Rat} : Within (some l) none d ↔ l ≤ d := by simp [Within]

theorem within_upper {u d : Rat} : Within none (some u) d ↔ d ≤ u := by simp [Within]

theorem within_exactly {q d : Rat} : Within (some q) (some q) d ↔ d = q := by
  simp only [Within, Option.mem_some_iff, forall_eq']
  exact ⟨fun h => le_antisymm h.2 h.1, fun h => ⟨h.ge, h.le⟩⟩

theorem foldl_collects {α β τ : Type} {R : β → (τ → Prop) → Prop} {f : β → α → β}
    {P : α → τ → Prop} {xs : List α}
    (congr : ∀ {b : β} {C D : τ → Prop}, R b C → (∀ t, C t ↔ D t) → R b D)
    (hf : ∀ x ∈ xs, ∀ {b : β} {C : τ → Prop}, R b C → R (f b x) fun t => C t ∧ P x t)
    {b : β} {C : τ → Prop} (h : R b C) : R (xs.foldl f b) fun t => C t ∧ ∀ x ∈ xs, P x t := by
  induction xs generalizing b C with
  | nil => exact congr h fun t => by simp
  | cons x xs ih =>
      rw [List.forall_mem_cons] at hf
      refine congr (ih hf.2 (hf.1 h)) fun t => ?_
      rw [List.forall_mem_cons, and_assoc]

namespace Rows

variable {ν : Type} [DecidableEq ν] {rows : Rows ν}

theorem mem_triples_iff {a b : ν} {w : Rat} :
    (a, b, w) ∈ rows.triples ↔ rows.weight? a b = some w := by
  constructor
  · intro h
    obtain ⟨⟨c, r⟩, hr, he⟩ := List.mem_flatMap.mp h
    obtain ⟨⟨d, v⟩, hd, heq⟩ := List.mem_map.mp he
    obtain ⟨rfl, rfl, rfl⟩ : c = a ∧ d = b ∧ v = w := by simpa using heq
    have hget : rows.get? c = some r := OrderedMap.mem_entries_iff.mp hr
    simpa [weight?, row, hget] using OrderedMap.mem_entries_iff.mp hd
  · intro h
    cases hget : rows.get? a with
    | none => simp [weight?, row, hget] at h
    | some r =>
        have hw : r.get? b = some w := by simpa [weight?, row, hget] using h
        exact List.mem_flatMap.mpr ⟨(a, r), OrderedMap.mem_entries_iff.mpr hget,
          List.mem_map.mpr ⟨(b, w), OrderedMap.mem_entries_iff.mpr hw, rfl⟩⟩

def Admits (rows : Rows ν) (t : ν → Rat) : Prop :=
  ∀ a b w, rows.weight? a b = some w → t b - t a ≤ w

theorem admits_setWeight {a b : ν} {w : Rat} (h : ∀ v, rows.weight? a b = some v → w ≤ v)
    (t : ν → Rat) : (rows.setWeight a b w).Admits t ↔ rows.Admits t ∧ t b - t a ≤ w := by
  constructor
  · intro ht
    have hab : t b - t a ≤ w := ht a b w (by simp)
    refine ⟨fun c d v hv => ?_, hab⟩
    by_cases hcd : c = a ∧ d = b
    · obtain ⟨rfl, rfl⟩ := hcd
      exact hab.trans (h v hv)
    · exact ht c d v (by simpa [hcd] using hv)
  · rintro ⟨ht, hab⟩ c d v hv
    by_cases hcd : c = a ∧ d = b
    · obtain ⟨rfl, rfl⟩ := hcd
      obtain rfl : w = v := by simpa using hv
      exact hab
    · exact ht c d v (by simpa [hcd] using hv)

end Rows

namespace Network

variable {ν : Type} [DecidableEq ν] {net : Network ν} {a b : ν}

def Solves (net : Network ν) (t : ν → Rat) : Prop := ∀ e ∈ net.edges, t e.2.1 - t e.1 ≤ e.2.2

theorem solves_iff {t : ν → Rat} : net.Solves t ↔ net.rows.Admits t :=
  ⟨fun h c d w hw => h (c, d, w) (Rows.mem_triples_iff.mpr hw),
    fun h e he => h e.1 e.2.1 e.2.2 (Rows.mem_triples_iff.mp he)⟩

structure Feasible (net : Network ν) : Prop where
  known : ∀ a b w, net.rows.weight? a b = some w → a ∈ net.nodes ∧ b ∈ net.nodes
  loopless : ∀ a, net.rows.weight? a a = none
  admits : net.rows.Admits (level net.potentials)

structure Tightens (net : Network ν) (holds : (ν → Rat) → Prop) (r : Network ν × Bool) : Prop where
  nodes : r.1.nodes = net.nodes
  failure : r.1.failure = net.failure
  accepted : r.2 = true → r.1.Feasible ∧ ∀ t, r.1.rows.Admits t ↔ net.rows.Admits t ∧ holds t
  rejected : r.2 = false → ∀ t, net.rows.Admits t → ¬ holds t

section Tighten

variable {w : Rat}

def lowerHead (net : Network ν) (a b : ν) (w : Rat) : OrderedMap ν Rat :=
  net.potentials.put b (level net.potentials a + w)

theorem keys_lowerHead (hb : b ∈ net.nodes) : (net.lowerHead a b w).keys = net.nodes :=
  keys_put_of_mem hb _

theorem level_lowerHead (x : ν) : level (net.lowerHead a b w) x =
    if x = b then level net.potentials a + w else level net.potentials x := level_put _ _ _ _

theorem Feasible.known_setWeight (hf : net.Feasible) (ha : a ∈ net.nodes) (hb : b ∈ net.nodes)
    {c d : ν} {v : Rat} (h : (net.rows.setWeight a b w).weight? c d = some v) :
    c ∈ net.nodes ∧ d ∈ net.nodes := by
  by_cases hcd : c = a ∧ d = b
  · exact ⟨hcd.1 ▸ ha, hcd.2 ▸ hb⟩
  · exact hf.known c d v (by simpa [hcd] using h)

theorem Feasible.loopless_setWeight (hf : net.Feasible) (hab : a ≠ b) (c : ν) :
    (net.rows.setWeight a b w).weight? c c = none := by
  have h : ¬(c = a ∧ c = b) := fun h => hab (h.1 ▸ h.2)
  simpa [h] using hf.loopless c

theorem holdsBeyond_setWeight {t : ν → Rat} (ht : net.rows.Admits t) :
    HoldsBeyond (net.rows.setWeight a b w) a t := by
  intro c d v hc hcd
  have := ht c d v (by simpa [hc] using hcd)
  linarith

theorem pending_lowerHead (hf : net.Feasible) (hab : a ≠ b)
    (hlt : level net.potentials a + w < level net.potentials b) :
    Pending (net.rows.setWeight a b w) [b] (net.lowerHead a b w) := by
  intro c d v hcd
  by_cases hc : c = b
  · exact .inr (by simp [hc])
  refine .inl ?_
  simp only [level_lowerHead, if_neg hc]
  by_cases h : c = a ∧ d = b
  · obtain ⟨rfl, rfl⟩ := h
    obtain rfl : w = v := by simpa using hcd
    simp
  · have hcdv := hf.admits c d v (by simpa [h] using hcd)
    split
    · rename_i hd
      subst hd
      linarith
    · linarith

theorem Feasible.known_lowerHead (hf : net.Feasible) (ha : a ∈ net.nodes) (hb : b ∈ net.nodes)
    (c d : ν) (v : Rat) (h : (net.rows.setWeight a b w).weight? c d = some v) :
    d ∈ (net.lowerHead a b w).keys :=
  keys_lowerHead (w := w) hb ▸ (hf.known_setWeight ha hb h).2

theorem final_lowerHead (hab : a ≠ b) (hb : b ∈ net.nodes) :
    Final a (level net.potentials) [] [b] (net.lowerHead a b w) :=
  ⟨List.nodup_nil, by simp, by simpa [keys_lowerHead hb] using ⟨Ne.symm hab, hb⟩, by simp⟩

theorem spread_lowerHead_ne_unsettled (hf : net.Feasible) (hab : a ≠ b) (ha : a ∈ net.nodes)
    (hb : b ∈ net.nodes) : spread (net.rows.setWeight a b w) a net.potentials.size [b]
      (net.lowerHead a b w) ≠ .unsettled := by
  refine spread_ne_unsettled (holdsBeyond_setWeight hf.admits) (hf.known_lowerHead ha hb)
    (final_lowerHead hab hb) ?_
  rw [keys_lowerHead hb]
  simp [nodes, OrderedMap.keys, OrderedMap.size]

theorem spread_lowerHead_ne_tailLowered {t : ν → Rat} (hf : net.Feasible) (hab : a ≠ b)
    (ha : a ∈ net.nodes) (hb : b ∈ net.nodes) (ht : net.rows.Admits t) (hw : t b - t a ≤ w)
    (passes : Nat) : spread (net.rows.setWeight a b w) a passes [b] (net.lowerHead a b w) ≠
      .tailLowered := by
  have hq : HoldsBeyond (net.rows.setWeight a b w) a _ :=
    (holdsBeyond_setWeight ht).shift (level net.potentials a - t a)
  refine spread_ne_tailLowered hq (hf.known_lowerHead ha hb) ?_ ?_
  · intro x hx
    obtain rfl := List.mem_singleton.mp hx
    refine ⟨Ne.symm hab, ?_⟩
    simp only [level_lowerHead, if_pos]
    linarith
  · simp [level_lowerHead, hab]

theorem tighten_tightens (hf : net.Feasible) (hab : a ≠ b) (ha : a ∈ net.nodes)
    (hb : b ∈ net.nodes) (hv : ∀ v, net.rows.weight? a b = some v → w ≤ v) :
    net.Tightens (fun t => t b - t a ≤ w) (net.tighten a b w) := by
  have hknown : ∀ c d v, (net.rows.setWeight a b w).weight? c d = some v →
      c ∈ net.nodes ∧ d ∈ net.nodes := fun c d v h => hf.known_setWeight ha hb h
  have hloop := hf.loopless_setWeight (w := w) hab
  have hset := Rows.admits_setWeight hv
  simp only [tighten]
  split
  · rename_i hle
    have hw : level net.potentials b - level net.potentials a ≤ w := by linarith
    exact ⟨rfl, rfl, fun _ => ⟨⟨hknown, hloop, (hset _).mpr ⟨hf.admits, hw⟩⟩, hset⟩, by simp⟩
  · rename_i hlt
    have hk : (net.lowerHead a b w).keys = net.nodes := keys_lowerHead hb
    have hpend := pending_lowerHead hf hab (not_le.mp hlt)
    split
    · rename_i p hs
      obtain ⟨hp, -, -, hdone⟩ := spread_settled (hf.known_lowerHead ha hb) hloop hpend hs
      have hkeys : p.keys = net.nodes := hp.trans hk
      refine ⟨hkeys, rfl, fun _ => ⟨⟨?_, hloop, ?_⟩, hset⟩, by simp⟩
      · simpa only [nodes, hkeys] using hknown
      · intro c d v h
        have := (hdone c d v h).resolve_right (by simp)
        linarith
    · rename_i hs
      refine ⟨rfl, rfl, by simp, fun _ t ht hw => ?_⟩
      cases hr : spread (net.rows.setWeight a b w) a net.potentials.size [b]
          (net.lowerHead a b w) with
      | settled p => exact hs p hr
      | tailLowered => exact spread_lowerHead_ne_tailLowered hf hab ha hb ht hw _ hr
      | unsettled => exact spread_lowerHead_ne_unsettled hf hab ha hb hr

end Tighten

theorem addBound_tightens {w : Rat} (hf : net.Feasible) (ha : a ∈ net.nodes) (hb : b ∈ net.nodes) :
    net.Tightens (fun t => t b - t a ≤ w) (net.addBound a b w) := by
  unfold addBound
  split
  · rename_i hab
    subst hab
    refine ⟨rfl, rfl, fun hw => ⟨hf, fun t => ?_⟩, fun hw t _ => by simpa using hw⟩
    have hw : 0 ≤ w := by simpa using hw
    simp [hw]
  · rename_i hab
    cases hv : net.rows.weight? a b with
    | none => exact tighten_tightens hf hab ha hb (by simp [hv])
    | some v =>
        simp only
        split
        · rename_i hle
          refine ⟨rfl, rfl, fun _ => ⟨hf, fun t => ⟨fun ht => ⟨ht, ?_⟩, And.left⟩⟩, by simp⟩
          exact (ht a b v hv).trans hle
        · rename_i hlt
          refine tighten_tightens hf hab ha hb fun u hu => ?_
          obtain rfl : v = u := by simpa [hv] using hu
          exact (not_le.mp hlt).le

theorem addUpper_tightens (hf : net.Feasible) (ha : a ∈ net.nodes) (hb : b ∈ net.nodes)
    (upper : Option Rat) :
    net.Tightens (fun t => ∀ u ∈ upper, t b - t a ≤ u) (net.addUpper a b upper) := by
  cases upper with
  | none => exact ⟨rfl, rfl, fun _ => ⟨hf, by simp [addUpper]⟩, by simp [addUpper]⟩
  | some u => simpa [addUpper] using addBound_tightens (w := u) hf ha hb

theorem addLower_tightens (hf : net.Feasible) (ha : a ∈ net.nodes) (hb : b ∈ net.nodes)
    (lower : Option Rat) :
    net.Tightens (fun t => ∀ l ∈ lower, l ≤ t b - t a) (net.addLower a b lower) := by
  cases lower with
  | none => exact ⟨rfl, rfl, fun _ => ⟨hf, by simp [addLower]⟩, by simp [addLower]⟩
  | some l =>
      have hl (t : ν → Rat) : t a - t b ≤ -l ↔ l ≤ t b - t a := by
        constructor <;> intro h <;> linarith
      simpa [addLower, hl] using addBound_tightens (w := -l) hf hb ha

theorem crossed_iff {lower upper : Option Rat} :
    crossed lower upper = true ↔ ∃ l ∈ lower, ∃ u ∈ upper, u < l := by
  cases lower <;> cases upper <;> simp [crossed]

theorem not_within_of_crossed {lower upper : Option Rat} (h : crossed lower upper = true)
    (d : Rat) : ¬ Within lower upper d := by
  obtain ⟨l, hl, u, hu, hlt⟩ := crossed_iff.mp h
  intro hd
  exact absurd (hlt.trans_le (hd.1 l hl)) (not_lt.mpr (hd.2 u hu))

section Nodes

theorem mem_nodes_addNode {x : ν} : x ∈ (net.addNode a).nodes ↔ x ∈ net.nodes ∨ x = a := by
  unfold addNode
  split
  · rename_i h
    have ha : a ∈ net.nodes := by
      by_contra hn
      simp [contains, OrderedMap.contains, OrderedMap.get?_eq_none_iff.mpr hn] at h
    exact ⟨.inl, fun hx => hx.elim id (· ▸ ha)⟩
  · simp only [nodes, OrderedMap.keys_put]
    split
    · rename_i ha
      exact ⟨.inl, fun hx => hx.elim id (· ▸ ha)⟩
    · simp

theorem level_addNode (x : ν) : level (net.addNode a).potentials x = level net.potentials x := by
  unfold addNode
  split
  · rfl
  · rename_i h
    rw [level_put]
    split
    · rename_i hx
      subst hx
      cases hg : net.potentials.get? x with
      | none => simp [level, hg]
      | some q => simp [contains, OrderedMap.contains, hg] at h
    · rfl

@[simp] theorem rows_addNode : (net.addNode a).rows = net.rows := by
  unfold addNode
  split <;> rfl

@[simp] theorem failure_addNode : (net.addNode a).failure = net.failure := by
  unfold addNode
  split <;> rfl

theorem Feasible.addNode (hf : net.Feasible) : (net.addNode a).Feasible where
  known c d w h := by
    obtain ⟨hc, hd⟩ := hf.known c d w (by simpa using h)
    exact ⟨mem_nodes_addNode.mpr (.inl hc), mem_nodes_addNode.mpr (.inl hd)⟩
  loopless := by simpa using hf.loopless
  admits c d w h := by
    simpa only [level_addNode] using hf.admits c d w (by simpa using h)

end Nodes

structure Adds (net : Network ν) (a b : ν) (holds : (ν → Rat) → Prop) (r : Network ν) : Prop where
  nodes : ∀ x, x ∈ r.nodes ↔ x ∈ net.nodes ∨ x = a ∨ x = b
  outcome : (r.failure = none ∧ r.Feasible ∧ ∀ t, r.rows.Admits t ↔ net.rows.Admits t ∧ holds t) ∨
    (r.failure = some (a, b) ∧ ∀ t, net.rows.Admits t → ¬ holds t)

theorem Feasible.add (hf : net.Feasible) (hn : net.failure = none) (a b : ν)
    (lower upper : Option Rat) :
    net.Adds a b (fun t => Within lower upper (t b - t a)) (net.add a b lower upper) := by
  have hm : ((net.addNode a).addNode b).Feasible := hf.addNode.addNode
  have hx : ∀ x, x ∈ ((net.addNode a).addNode b).nodes ↔ x ∈ net.nodes ∨ x = a ∨ x = b :=
    fun x => by rw [mem_nodes_addNode, mem_nodes_addNode, or_assoc]
  have hr : ((net.addNode a).addNode b).rows = net.rows := by simp
  have hmn : ((net.addNode a).addNode b).failure = none := by simp [hn]
  simp only [Network.add, hn, Option.isSome_none, Bool.false_eq_true, if_false]
  generalize (net.addNode a).addNode b = m at hm hx hr hmn
  have ha : a ∈ m.nodes := (hx a).mpr (.inr (.inl rfl))
  have hb : b ∈ m.nodes := (hx b).mpr (.inr (.inr rfl))
  split
  · rename_i hc
    exact ⟨hx, .inr ⟨rfl, fun t _ => not_within_of_crossed hc _⟩⟩
  · have hu := addUpper_tightens hm ha hb upper
    split
    · rename_i n he
      rw [he] at hu
      have hnx : n.nodes = m.nodes := hu.nodes
      refine ⟨fun x => by rw [← hx x, ← hnx]; rfl, .inr ⟨rfl, fun t ht hw => ?_⟩⟩
      exact hu.rejected rfl t (hr ▸ ht) hw.2
    · rename_i n he
      rw [he] at hu
      obtain ⟨hfu, hU⟩ := hu.accepted rfl
      have hl := addLower_tightens hfu (hu.nodes ▸ ha) (hu.nodes ▸ hb) lower
      split
      · rename_i k hk
        rw [hk] at hl
        have hkx : k.nodes = m.nodes := hl.nodes.trans hu.nodes
        refine ⟨fun x => by rw [← hx x, ← hkx]; rfl, .inr ⟨rfl, fun t ht hw => ?_⟩⟩
        exact hl.rejected rfl t ((hU t).mpr ⟨hr ▸ ht, hw.2⟩) hw.1
      · rename_i k hk
        rw [hk] at hl
        obtain ⟨hfl, hL⟩ := hl.accepted rfl
        have hkx : k.nodes = m.nodes := hl.nodes.trans hu.nodes
        have hkn : k.failure = none := (hl.failure.trans hu.failure).trans hmn
        refine ⟨fun x => by rw [← hx x, ← hkx], .inl ⟨hkn, hfl, fun t => ?_⟩⟩
        rw [hL t, hU t, hr, and_assoc, Within, and_comm (a := ∀ u ∈ upper, _)]

theorem add_of_failed (hn : net.failure ≠ none) (a b : ν) (lower upper : Option Rat) :
    net.add a b lower upper = net := by
  rw [add, if_pos (Option.isSome_iff_ne_none.mpr hn)]

/-- The network says of the times of its nodes what the constraint `C` says. -/
structure Represents (net : Network ν) (C : (ν → Rat) → Prop) : Prop where
  exact : net.failure = none → net.Feasible ∧ ∀ t, net.rows.Admits t ↔ C t
  refuted : net.failure ≠ none → ∀ t, ¬ C t

namespace Represents

variable {C D : (ν → Rat) → Prop}

theorem congr (h : net.Represents C) (hCD : ∀ t, C t ↔ D t) : net.Represents D where
  exact hn := ⟨(h.exact hn).1, fun t => ((h.exact hn).2 t).trans (hCD t)⟩
  refuted hn t ht := h.refuted hn t ((hCD t).mpr ht)

theorem empty : (Network.empty : Network ν).Represents fun _ => True where
  exact _ := by
    have hw : ∀ a b : ν, (Network.empty : Network ν).rows.weight? a b = none := fun _ _ => rfl
    exact ⟨⟨by simp [hw], fun a => hw a a, fun a b w h => by simp [hw] at h⟩,
      fun t => iff_true_intro fun a b w h => by simp [hw] at h⟩
  refuted hn := absurd rfl hn

theorem addNode (h : net.Represents C) : (net.addNode a).Represents C where
  exact hn := by
    rw [failure_addNode] at hn
    exact ⟨(h.exact hn).1.addNode, by simpa using (h.exact hn).2⟩
  refuted hn := h.refuted (by simpa using hn)

theorem add (h : net.Represents C) (a b : ν) (lower upper : Option Rat) :
    (net.add a b lower upper).Represents fun t => C t ∧ Within lower upper (t b - t a) := by
  by_cases hn : net.failure = none
  · obtain ⟨hf, hC⟩ := h.exact hn
    rcases (hf.add hn a b lower upper).outcome with ⟨hr, hrf, hA⟩ | ⟨hr, hA⟩
    · exact ⟨fun _ => ⟨hrf, fun t => by rw [hA t, hC t]⟩, fun h => absurd hr h⟩
    · exact ⟨fun h => by simp [hr] at h, fun _ t ht => hA t ((hC t).mpr ht.1) ht.2⟩
  · rw [add_of_failed hn]
    exact ⟨fun h => absurd h hn, fun _ t ht => h.refuted hn t ht.1⟩

theorem foldl {α : Type} {f : Network ν → α → Network ν} {P : α → (ν → Rat) → Prop} (xs : List α)
    (hf : ∀ x ∈ xs, ∀ {net : Network ν} {C : (ν → Rat) → Prop}, net.Represents C →
      (f net x).Represents fun t => C t ∧ P x t) (h : net.Represents C) :
    (xs.foldl f net).Represents fun t => C t ∧ ∀ x ∈ xs, P x t :=
  foldl_collects (R := Represents) congr hf h

theorem check_iff (h : net.Represents C) : net.check = true ↔ ∃ t, C t := by
  rw [check, Option.isNone_iff_eq_none]
  constructor
  · intro hn
    obtain ⟨hf, hC⟩ := h.exact hn
    exact ⟨_, (hC _).mp hf.admits⟩
  · rintro ⟨t, ht⟩
    by_contra hn
    exact h.refuted hn t ht

theorem solves_iff (h : net.Represents C) (hc : net.check = true) (t : ν → Rat) :
    net.Solves t ↔ C t := by
  rw [Network.solves_iff]
  exact (h.exact (Option.isNone_iff_eq_none.mp hc)).2 t

end Represents

end Network

end TemporalPlanning
