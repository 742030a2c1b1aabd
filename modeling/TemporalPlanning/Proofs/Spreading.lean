import Mathlib.Data.Finset.Max
import Mathlib.Tactic.Linarith
import TemporalPlanning.Network

namespace TemporalPlanning.Network

variable {ν : Type} [DecidableEq ν]

@[simp] theorem level_put (p : OrderedMap ν Rat) (a b : ν) (q : Rat) :
    level (p.put b q) a = if a = b then q else level p a := by
  by_cases h : a = b <;> simp [level, h]

theorem keys_put_of_mem {p : OrderedMap ν Rat} {b : ν} (h : b ∈ p.keys) (q : Rat) :
    (p.put b q).keys = p.keys := by
  rw [OrderedMap.keys_put, if_pos h]

structure Lowers (tail : ν) (s s' : List ν × OrderedMap ν Rat) : Prop where
  keys : s'.2.keys = s.2.keys
  le : ∀ x, level s'.2 x ≤ level s.2 x
  kept : level s'.2 tail = level s.2 tail
  fresh : ∀ x ∈ s'.1, x ∈ s.1 ∨ x ≠ tail ∧ x ∈ s.2.keys ∧ level s'.2 x < level s.2 x

namespace Lowers

variable {tail : ν} {s s' s'' : List ν × OrderedMap ν Rat}

theorem refl (s : List ν × OrderedMap ν Rat) : Lowers tail s s :=
  ⟨rfl, fun _ => le_refl _, rfl, fun _ hx => .inl hx⟩

theorem trans (h : Lowers tail s s') (h' : Lowers tail s' s'') : Lowers tail s s'' where
  keys := h'.keys.trans h.keys
  le x := (h'.le x).trans (h.le x)
  kept := h'.kept.trans h.kept
  fresh x hx := by
    rcases h'.fresh x hx with hx | ⟨hne, hk, hlt⟩
    · rcases h.fresh x hx with hx | ⟨hne, hk, hlt⟩
      · exact .inl hx
      · exact .inr ⟨hne, hk, lt_of_le_of_lt (h'.le x) hlt⟩
    · exact .inr ⟨hne, h.keys ▸ hk, lt_of_lt_of_le hlt (h.le x)⟩

theorem put {waiting next : List ν} {p : OrderedMap ν Rat} {b : ν} {q : Rat} (hb : b ≠ tail)
    (hk : b ∈ p.keys) (hq : q < level p b) :
    Lowers tail (next, p) (if b ∈ waiting ++ next then next else next ++ [b], p.put b q) where
  keys := keys_put_of_mem hk q
  le x := by
    by_cases hx : x = b
    · simpa [hx] using hq.le
    · simp [hx]
  kept := by simp [Ne.symm hb]
  fresh x hx := by
    by_cases hw : b ∈ waiting ++ next
    · exact .inl (by simpa [hw] using hx)
    · rcases List.mem_append.mp (by simpa only [if_neg hw] using hx) with hx | hx
      · exact .inl hx
      · obtain rfl := List.mem_singleton.mp hx
        exact .inr ⟨hb, hk, by simpa using hq⟩

end Lowers

def Pending (rows : Rows ν) (waiting : List ν) (p : OrderedMap ν Rat) : Prop :=
  ∀ a b w, rows.weight? a b = some w → level p b ≤ level p a + w ∨ a ∈ waiting

def HoldsBeyond (rows : Rows ν) (tail : ν) (q : ν → Rat) : Prop :=
  ∀ a b w, a ≠ tail → rows.weight? a b = some w → q b ≤ q a + w

theorem HoldsBeyond.shift {rows : Rows ν} {tail : ν} {q : ν → Rat}
    (h : HoldsBeyond rows tail q) (c : Rat) : HoldsBeyond rows tail fun x => c + q x := by
  intro a b w ha hw
  have := h a b w ha hw
  linarith

section Row

variable {tail a : ν} {base : Rat} {waiting next : List ν} {row : List (ν × Rat)}
  {p : OrderedMap ν Rat} {s' : List ν × OrderedMap ν Rat}

theorem lowerRow_lowers (hrow : ∀ e ∈ row, e.1 ∈ p.keys)
    (h : lowerRow tail base waiting row next p = some s') : Lowers tail (next, p) s' := by
  induction row generalizing next p with
  | nil =>
      obtain rfl : (next, p) = s' := by simpa [lowerRow] using h
      exact .refl _
  | cons e row ih =>
      obtain ⟨b, w⟩ := e
      have hb : b ∈ p.keys := hrow (b, w) List.mem_cons_self
      have hrest : ∀ e ∈ row, e.1 ∈ p.keys := fun e he => hrow e (List.mem_cons_of_mem _ he)
      simp only [lowerRow] at h
      split at h
      · exact ih hrest h
      · rename_i hlt
        split at h
        · simp at h
        · rename_i hne
          have hrest' : ∀ e ∈ row, e.1 ∈ (p.put b (base + w)).keys := by
            rwa [keys_put_of_mem hb]
          exact (Lowers.put hne hb (not_le.mp hlt)).trans (ih hrest' h)

theorem lowerRow_eq_none (h : lowerRow tail base waiting row next p = none) :
    ∃ w, (tail, w) ∈ row ∧ base + w < level p tail := by
  induction row generalizing next p with
  | nil => simp [lowerRow] at h
  | cons e row ih =>
      obtain ⟨b, w⟩ := e
      simp only [lowerRow] at h
      split at h
      · obtain ⟨v, hv, hlt⟩ := ih h
        exact ⟨v, List.mem_cons_of_mem _ hv, hlt⟩
      · rename_i hlt
        split at h
        · rename_i hb
          exact ⟨w, hb ▸ List.mem_cons_self, hb ▸ not_le.mp hlt⟩
        · rename_i hne
          obtain ⟨v, hv, hlt⟩ := ih h
          exact ⟨v, List.mem_cons_of_mem _ hv, by simpa [Ne.symm hne] using hlt⟩

theorem lowerRow_above {bound : ν → Rat} (hrow : ∀ e ∈ row, bound e.1 ≤ base + e.2)
    (h : lowerRow tail base waiting row next p = some s') (x : ν) :
    level s'.2 x = level p x ∨ bound x ≤ level s'.2 x := by
  induction row generalizing next p with
  | nil =>
      obtain rfl : (next, p) = s' := by simpa [lowerRow] using h
      exact .inl rfl
  | cons e row ih =>
      obtain ⟨b, w⟩ := e
      have hb : bound b ≤ base + w := hrow (b, w) List.mem_cons_self
      have hrest : ∀ e ∈ row, bound e.1 ≤ base + e.2 :=
        fun e he => hrow e (List.mem_cons_of_mem _ he)
      simp only [lowerRow] at h
      split at h
      · exact ih hrest h
      · split at h
        · simp at h
        · rcases ih hrest h with hx | hx
          · by_cases hxb : x = b
            · exact .inr (by rw [hx, hxb]; simpa using hb)
            · exact .inl (by simpa [hxb] using hx)
          · exact .inr hx

theorem lowerRow_pending {rows : Rows ν} (hrow : ∀ e ∈ row, e.1 ≠ a) (hbase : level p a = base)
    (hp : ∀ x b w, rows.weight? x b = some w →
      level p b ≤ level p x + w ∨ x ∈ waiting ++ next ∨ x = a ∧ (b, w) ∈ row)
    (h : lowerRow tail base waiting row next p = some s') :
    Pending rows (waiting ++ s'.1) s'.2 := by
  induction row generalizing next p with
  | nil =>
      obtain rfl : (next, p) = s' := by simpa [lowerRow] using h
      intro x b w hx
      simpa using hp x b w hx
  | cons e row ih =>
      obtain ⟨c, v⟩ := e
      have hc : c ≠ a := hrow (c, v) List.mem_cons_self
      have hrest : ∀ e ∈ row, e.1 ≠ a := fun e he => hrow e (List.mem_cons_of_mem _ he)
      simp only [lowerRow] at h
      split at h
      · rename_i hle
        refine ih hrest hbase (fun x b w hx => ?_) h
        rcases hp x b w hx with hx | hx | ⟨rfl, hx⟩
        · exact .inl hx
        · exact .inr (.inl hx)
        · rcases List.mem_cons.mp hx with hx | hx
          · obtain ⟨rfl, rfl⟩ := Prod.mk.inj hx
            exact .inl (by rw [hbase]; exact hle)
          · exact .inr (.inr ⟨rfl, hx⟩)
      · rename_i hlt
        split at h
        · simp at h
        · refine ih hrest (by simp [Ne.symm hc, hbase]) (fun x b w hx => ?_) h
          by_cases hxc : x = c
          · exact .inr (.inl (by by_cases hw : c ∈ waiting ++ next <;> simp_all))
          · have hb : level (p.put c (base + v)) b ≤ level p b := by
              by_cases hbc : b = c
              · simpa [hbc] using (not_le.mp hlt).le
              · simp [hbc]
            rcases hp x b w hx with hx | hx | ⟨rfl, hx⟩
            · exact .inl (by simpa [hxc] using hb.trans hx)
            · exact .inr (.inl (by split <;> simp_all))
            · rcases List.mem_cons.mp hx with hx | hx
              · obtain ⟨rfl, rfl⟩ := Prod.mk.inj hx
                exact .inl (by simp [hxc, hbase])
              · exact .inr (.inr ⟨rfl, hx⟩)

end Row

section Pass

variable {rows : Rows ν} {tail : ν} {waiting next : List ν} {p : OrderedMap ν Rat}
  {s' : List ν × OrderedMap ν Rat}

theorem mem_row_iff {a b : ν} {w : Rat} :
    (b, w) ∈ (rows.row a).entries ↔ rows.weight? a b = some w := OrderedMap.mem_entries_iff

theorem lowerPass_cons {a : ν} (h : lowerPass rows tail (a :: waiting) next p = some s') :
    ∃ s, lowerRow tail (level p a) waiting (rows.row a).entries next p = some s ∧
      lowerPass rows tail waiting s.1 s.2 = some s' := by
  simp only [lowerPass] at h
  split at h
  · simp at h
  · rename_i n r hr
    exact ⟨(n, r), hr, h⟩

theorem lowerPass_lowers (hrows : ∀ a b w, rows.weight? a b = some w → b ∈ p.keys)
    (h : lowerPass rows tail waiting next p = some s') : Lowers tail (next, p) s' := by
  induction waiting generalizing next p with
  | nil =>
      obtain rfl : (next, p) = s' := by simpa [lowerPass] using h
      exact .refl _
  | cons a waiting ih =>
      obtain ⟨s, hs, h⟩ := lowerPass_cons h
      have hl := lowerRow_lowers (fun e he => hrows a e.1 e.2 (mem_row_iff.mp he)) hs
      exact hl.trans (ih (by rw [hl.keys]; exact hrows) h)

theorem lowerPass_pending (hloop : ∀ a, rows.weight? a a = none)
    (hp : Pending rows (waiting ++ next) p)
    (h : lowerPass rows tail waiting next p = some s') : Pending rows s'.1 s'.2 := by
  induction waiting generalizing next p with
  | nil =>
      obtain rfl : (next, p) = s' := by simpa [lowerPass] using h
      exact hp
  | cons a waiting ih =>
      obtain ⟨s, hs, h⟩ := lowerPass_cons h
      refine ih (lowerRow_pending ?_ rfl (fun x b w hx => ?_) hs) h
      · rintro ⟨b, w⟩ he rfl
        rw [mem_row_iff, hloop] at he
        simp at he
      · rcases hp x b w hx with hle | hm
        · exact .inl hle
        · rcases List.mem_cons.mp hm with rfl | hm
          · exact .inr (.inr ⟨rfl, mem_row_iff.mpr hx⟩)
          · exact .inr (.inl hm)

def WaitAbove (tail : ν) (q : ν → Rat) (waiting : List ν) (p : OrderedMap ν Rat) : Prop :=
  ∀ x ∈ waiting, x ≠ tail ∧ q x ≤ level p x

theorem WaitAbove.lowerRow {q : ν → Rat} {a : ν} (hq : HoldsBeyond rows tail q)
    (hrows : ∀ a b w, rows.weight? a b = some w → b ∈ p.keys)
    (hw : WaitAbove tail q (a :: (waiting ++ next)) p)
    (h : lowerRow tail (level p a) waiting (rows.row a).entries next p = some s') :
    WaitAbove tail q (waiting ++ s'.1) s'.2 ∧
      ∀ x, level s'.2 x = level p x ∨ q x ≤ level s'.2 x := by
  obtain ⟨hne, ha⟩ := hw a List.mem_cons_self
  have habove : ∀ x, level s'.2 x = level p x ∨ q x ≤ level s'.2 x :=
    lowerRow_above (fun e he => by
      have := hq a e.1 e.2 hne (mem_row_iff.mp he)
      linarith) h
  have hl := lowerRow_lowers (fun e he => hrows a e.1 e.2 (mem_row_iff.mp he)) h
  have hstay : ∀ x ∈ waiting ++ next, x ≠ tail ∧ q x ≤ level s'.2 x := fun x hx => by
    obtain ⟨hxt, hxq⟩ := hw x (List.mem_cons_of_mem _ hx)
    rcases habove x with he | he
    · exact ⟨hxt, he ▸ hxq⟩
    · exact ⟨hxt, he⟩
  refine ⟨fun x hx => ?_, habove⟩
  rcases List.mem_append.mp hx with hx | hx
  · exact hstay x (List.mem_append_left _ hx)
  · rcases hl.fresh x hx with hx | ⟨hxt, _, hlt⟩
    · exact hstay x (List.mem_append_right _ hx)
    · exact ⟨hxt, (habove x).resolve_left hlt.ne⟩

theorem lowerPass_above {q : ν → Rat} (hq : HoldsBeyond rows tail q)
    (hrows : ∀ a b w, rows.weight? a b = some w → b ∈ p.keys)
    (hw : WaitAbove tail q (waiting ++ next) p)
    (h : lowerPass rows tail waiting next p = some s') :
    WaitAbove tail q s'.1 s'.2 ∧ ∀ x, level s'.2 x = level p x ∨ q x ≤ level s'.2 x := by
  induction waiting generalizing next p with
  | nil =>
      obtain rfl : (next, p) = s' := by simpa [lowerPass] using h
      exact ⟨hw, fun _ => .inl rfl⟩
  | cons a waiting ih =>
      obtain ⟨s, hs, h⟩ := lowerPass_cons h
      have hl := lowerRow_lowers (fun e he => hrows a e.1 e.2 (mem_row_iff.mp he)) hs
      obtain ⟨hw', habove⟩ := WaitAbove.lowerRow hq hrows hw hs
      obtain ⟨hw'', habove'⟩ := ih (by rw [hl.keys]; exact hrows) hw' h
      refine ⟨hw'', fun x => ?_⟩
      rcases habove' x with he | he
      · rw [he]
        exact habove x
      · exact .inr he

theorem lowerPass_ne_none {q : ν → Rat} (hq : HoldsBeyond rows tail q)
    (hrows : ∀ a b w, rows.weight? a b = some w → b ∈ p.keys)
    (hw : WaitAbove tail q (waiting ++ next) p) (htail : level p tail ≤ q tail) :
    lowerPass rows tail waiting next p ≠ none := by
  induction waiting generalizing next p with
  | nil => simp [lowerPass]
  | cons a waiting ih =>
      intro h
      simp only [lowerPass] at h
      split at h
      · rename_i hr
        obtain ⟨w, hm, hlt⟩ := lowerRow_eq_none hr
        obtain ⟨hne, ha⟩ := hw a List.mem_cons_self
        have := hq a tail w hne (mem_row_iff.mp hm)
        linarith
      · rename_i n r hr
        have hl := lowerRow_lowers (fun e he => hrows a e.1 e.2 (mem_row_iff.mp he)) hr
        have hw' := (WaitAbove.lowerRow hq hrows hw hr).1
        exact ih (by rw [hl.keys]; exact hrows) hw' (hl.kept ▸ htail) h

end Pass

section Spread

variable {rows : Rows ν} {tail : ν} {passes : Nat} {waiting : List ν} {p p' : OrderedMap ν Rat}

theorem spread_settled (hrows : ∀ a b w, rows.weight? a b = some w → b ∈ p.keys)
    (hloop : ∀ a, rows.weight? a a = none) (hp : Pending rows waiting p)
    (h : spread rows tail passes waiting p = .settled p') :
    p'.keys = p.keys ∧ (∀ x, level p' x ≤ level p x) ∧ level p' tail = level p tail ∧
      Pending rows [] p' := by
  induction passes generalizing waiting p with
  | zero =>
      cases waiting with
      | nil =>
          obtain rfl : p = p' := by simpa [spread] using h
          exact ⟨rfl, fun _ => le_refl _, rfl, hp⟩
      | cons a waiting => simp [spread] at h
  | succ passes ih =>
      cases waiting with
      | nil =>
          obtain rfl : p = p' := by simpa [spread] using h
          exact ⟨rfl, fun _ => le_refl _, rfl, hp⟩
      | cons a waiting =>
          simp only [spread] at h
          split at h
          · simp at h
          · rename_i n r hr
            have hl := lowerPass_lowers hrows hr
            have hkr : r.keys = p.keys := hl.keys
            have hp0 : Pending rows ((a :: waiting) ++ []) p := by simpa using hp
            have hn := lowerPass_pending hloop hp0 hr
            obtain ⟨hk, hle, ht, hd⟩ := ih (hkr ▸ hrows) hn h
            exact ⟨hk.trans hkr, fun x => (hle x).trans (hl.le x), ht.trans hl.kept, hd⟩

theorem spread_ne_tailLowered {q : ν → Rat} (hq : HoldsBeyond rows tail q)
    (hrows : ∀ a b w, rows.weight? a b = some w → b ∈ p.keys)
    (hw : WaitAbove tail q waiting p) (htail : level p tail ≤ q tail) :
    spread rows tail passes waiting p ≠ .tailLowered := by
  induction passes generalizing waiting p with
  | zero => cases waiting <;> simp [spread]
  | succ passes ih =>
      cases waiting with
      | nil => simp [spread]
      | cons a waiting =>
          intro h
          have hw0 : WaitAbove tail q ((a :: waiting) ++ []) p := by simpa using hw
          simp only [spread] at h
          split at h
          · rename_i hr
            exact lowerPass_ne_none hq hrows hw0 htail hr
          · rename_i n r hr
            have hl := lowerPass_lowers hrows hr
            have hk : r.keys = p.keys := hl.keys
            have ht : level r tail = level p tail := hl.kept
            have hn := (lowerPass_above hq hrows hw0 hr).1
            exact ih (hk ▸ hrows) hn (ht ▸ htail) h

/-- Nodes that no later pass lowers: they lie no higher above `q` than what waits. -/
structure Final (tail : ν) (q : ν → Rat) (done waiting : List ν) (p : OrderedMap ν Rat) :
    Prop where
  nodup : done.Nodup
  known : ∀ x ∈ done, x ∈ p.keys
  waits : ∀ x ∈ waiting, x ≠ tail ∧ x ∈ p.keys ∧ x ∉ done
  lowest : ∀ x ∈ done, ∀ y ∈ waiting, level p x - q x ≤ level p y - q y

theorem Final.pass {q : ν → Rat} {done : List ν} {s' : List ν × OrderedMap ν Rat}
    (hq : HoldsBeyond rows tail q) (hrows : ∀ a b w, rows.weight? a b = some w → b ∈ p.keys)
    (hf : Final tail q done waiting p) (hne : waiting ≠ [])
    (h : lowerPass rows tail waiting [] p = some s') :
    ∃ x ∈ waiting, Final tail q (x :: done) s'.1 s'.2 := by
  obtain ⟨x, hx, hmin⟩ := waiting.toFinset.exists_min_image (fun y => level p y - q y)
    ⟨_, List.mem_toFinset.mpr (List.head_mem hne)⟩
  rw [List.mem_toFinset] at hx
  obtain ⟨-, hxk, hxd⟩ := hf.waits x hx
  -- the bound through the lowest waiting node
  have hq' := hq.shift (level p x - q x)
  have hw : WaitAbove tail (fun y => level p x - q x + q y) (waiting ++ []) p := by
    intro y hy
    have hy : y ∈ waiting := by simpa using hy
    have := hmin y (List.mem_toFinset.mpr hy)
    exact ⟨(hf.waits y hy).1, by linarith⟩
  obtain ⟨hw', habove⟩ := lowerPass_above hq' hrows hw h
  have hl := lowerPass_lowers hrows h
  have hlow : ∀ y ∈ x :: done, level p y - q y ≤ level p x - q x := by
    intro y hy
    rcases List.mem_cons.mp hy with rfl | hy
    · exact le_refl _
    · exact hf.lowest y hy x hx
  have hsame : ∀ y ∈ x :: done, level s'.2 y = level p y := by
    intro y hy
    rcases habove y with he | he
    · exact he
    · have h1 := hl.le y
      have h2 := hlow y hy
      linarith
  refine ⟨x, hx, List.nodup_cons.mpr ⟨hxd, hf.nodup⟩, ?_, ?_, ?_⟩
  · intro y hy
    rw [hl.keys]
    rcases List.mem_cons.mp hy with rfl | hy
    · exact hxk
    · exact hf.known y hy
  · intro y hy
    rcases hl.fresh y hy with hn | ⟨hyt, hyk, hlt⟩
    · simp at hn
    · exact ⟨hyt, hl.keys ▸ hyk, fun hd => hlt.ne (hsame y hd)⟩
  · intro y hy z hz
    have h1 := hsame y hy
    have h2 := hlow y hy
    have h3 := (hw' z hz).2
    simp only at h3
    linarith

theorem spread_ne_unsettled {q : ν → Rat} {done : List ν} (hq : HoldsBeyond rows tail q)
    (hrows : ∀ a b w, rows.weight? a b = some w → b ∈ p.keys)
    (hf : Final tail q done waiting p) (hsize : p.keys.length ≤ passes + done.length) :
    spread rows tail passes waiting p ≠ .unsettled := by
  -- every pass makes one more node final, and there are no more nodes than passes
  induction passes generalizing waiting p done with
  | zero =>
      cases waiting with
      | nil => simp [spread]
      | cons a waiting =>
          obtain ⟨-, hk, hd⟩ := hf.waits a List.mem_cons_self
          have hsub : (a :: done).Subperm p.keys :=
            (List.nodup_cons.mpr ⟨hd, hf.nodup⟩).subperm fun y hy => by
              rcases List.mem_cons.mp hy with rfl | hy
              · exact hk
              · exact hf.known y hy
          have := hsub.length_le
          simp only [List.length_cons] at this
          omega
  | succ passes ih =>
      cases waiting with
      | nil => simp [spread]
      | cons a waiting =>
          intro h
          simp only [spread] at h
          split at h
          · simp at h
          · rename_i n r hr
            have hk : r.keys = p.keys := (lowerPass_lowers hrows hr).keys
            obtain ⟨x, -, hx⟩ := hf.pass hq hrows (by simp) hr
            exact ih (hk ▸ hrows) hx (by rw [hk, List.length_cons]; omega) h

end Spread

end TemporalPlanning.Network
