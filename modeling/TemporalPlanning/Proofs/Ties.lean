import TemporalPlanning.Proofs.Numberings

namespace TemporalPlanning

variable {steps steps' : List TimedStep} {xs ys : List Scheduled} {k : Numbering} {x y : Scheduled}

section Ties

variable {k' : Numbering} {x' y' : Scheduled} {epsilon : Rat}

theorem lex_tie {α β : Type} [LinearOrder α] [LE β] {a b : α} {u v u' v' : β}
    (h : toLex (a, u) ≤ toLex (b, v)) (h' : toLex (b, v') ≤ toLex (a, u')) :
    a = b ∧ u ≤ v ∧ v' ≤ u' := by
  rw [Prod.Lex.toLex_le_toLex] at h h'
  rcases h with h | ⟨rfl, h⟩
  · rcases h' with h' | ⟨rfl, -⟩
    · exact absurd (h.trans h') (lt_irrefl _)
    · exact absurd h (lt_irrefl _)
  · rcases h' with h' | ⟨-, h'⟩
    · exact absurd h' (lt_irrefl _)
    · exact ⟨rfl, h, h'⟩

def Scheduled.late (x : Scheduled) : Nat ×ₗ Nat := toLex (x.turn.rank, x.event.id)

theorem Scheduled.tie (hx : x'.time = x.time ∧ x'.turn.isGoal = x.turn.isGoal ∧
      x'.event.kind = x.event.kind)
    (hy : y'.time = y.time ∧ y'.turn.isGoal = y.turn.isGoal ∧ y'.event.kind = y.event.kind)
    (hxy : x.notAfter y = true) (hyx : y'.notAfter x' = true) :
    x.time = y.time ∧ x.turn.isGoal = y.turn.isGoal ∧ x.event.kind.rank = y.event.kind.rank ∧
      x.late ≤ y.late ∧ y'.late ≤ x'.late := by
  rw [notAfter_iff] at hxy hyx
  simp only [key, hx, hy] at hxy hyx
  obtain ⟨htime, hxy, hyx⟩ := lex_tie hxy hyx
  obtain ⟨hgoal, hxy, hyx⟩ := lex_tie hxy hyx
  obtain ⟨hkind, hxy, hyx⟩ := lex_tie hxy hyx
  exact ⟨htime, hgoal, hkind, hxy, hyx⟩

theorem EventKind.eq_of_rank {a b : EventKind} (h : a.rank = b.rank) : a = b := by
  cases a <;> cases b <;> first | rfl | cases h

theorem sublist_of_getElem? {α : Type} {l : List α} {i j : Nat} {a b : α} (hij : i < j)
    (ha : l[i]? = some a) (hb : l[j]? = some b) : [a, b].Sublist l := by
  have hfront : a ∈ l.take j :=
    List.mem_of_getElem? ((List.getElem?_take_of_lt hij).trans ha)
  have hback : b ∈ l.drop j := by
    refine List.mem_of_getElem? (i := 0) ?_
    rwa [List.getElem?_drop]
  have hsub := (List.singleton_sublist.mpr hfront).append (List.singleton_sublist.mpr hback)
  rwa [List.take_append_drop] at hsub

namespace Scheduled.OwnedBy

theorem of_plan (h : x.OwnedBy k epsilon steps) (ho : (k.happening x).owner = .plan) :
    x.turn = .goal ∧ (k.happening x).event.id = x.event.id := by
  cases h with
  | ofStep step turn happening => cases ho.symm.trans (TimedStep.owner_of_happening happening)
  | ofEffects m turn owner id => cases ho.symm.trans owner
  | ofGoal turn owner id => exact ⟨turn, id⟩

theorem of_effects {m : Nat} (h : x.OwnedBy k epsilon steps)
    (ho : (k.happening x).owner = .effects m) :
    x.turn = .timedEffect ∧ (k.happening x).event.id = x.event.id := by
  cases h with
  | ofStep step turn happening => cases ho.symm.trans (TimedStep.owner_of_happening happening)
  | ofEffects m turn owner id => exact ⟨turn, id⟩
  | ofGoal turn owner id => cases ho.symm.trans owner

theorem of_step {i : ActionInstance} (h : x.OwnedBy k epsilon steps)
    (ho : (k.happening x).owner = .step i) : ∃ m s, steps[m]? = some s ∧ s.step = i ∧
      x.turn = .step m ∧ k.happening x ∈ s.happenings epsilon := by
  cases h with
  | ofStep step turn happening =>
      exact ⟨_, _, step, Owner.step.inj ((TimedStep.owner_of_happening happening).symm.trans ho),
        turn, happening⟩
  | ofEffects m turn owner id => cases ho.symm.trans owner
  | ofGoal turn owner id => cases ho.symm.trans owner

theorem isGoal_iff (h : x.OwnedBy k epsilon steps) :
    x.turn.isGoal = true ↔ (k.happening x).owner = .plan := by
  cases h with
  | ofStep step turn happening => simp [turn, Turn.isGoal, TimedStep.owner_of_happening happening]
  | ofEffects m turn owner id => simp [turn, Turn.isGoal, owner]
  | ofGoal turn owner id => simp [turn, Turn.isGoal, owner]

end Scheduled.OwnedBy

namespace Numbering.Fits

variable (h : k.Fits epsilon steps xs) (h' : k'.Fits epsilon steps' ys)

include h in
theorem id_le (hx : x ∈ xs) (hy : y ∈ xs) (ho : (k.happening x).owner = (k.happening y).owner)
    (hle : (k.happening x).event.id ≤ (k.happening y).event.id) : x.event.id ≤ y.event.id := by
  have hactivity : x.event.activity.id = y.event.activity.id := h.injective ho
  have hleast := (h.least x hx).1
  have hleast' := (h.least y hy).1
  simp only [happening, Event.id_bare] at hle
  rw [hactivity] at hle hleast
  omega

include h h' in
theorem same_key (hx : x ∈ xs) (hx' : x' ∈ ys) (hhappening : k'.happening x' = k.happening x) :
    x'.time = x.time ∧ x'.turn.isGoal = x.turn.isGoal ∧ x'.event.kind = x.event.kind := by
  refine ⟨congrArg Happening.time hhappening, ?_, ?_⟩
  · rw [Bool.eq_iff_iff, (h'.describes x' hx').isGoal_iff, (h.describes x hx).isGoal_iff,
      hhappening]
  · have hkind := congrArg (fun a : Happening => a.event.kind) hhappening
    simpa [happening] using hkind

include h h' in
theorem tie_of_steps (hperm : steps.Perm steps') (hdistinct : (steps.map TimedStep.step).Nodup)
    (hx : x ∈ xs) (hy : y ∈ xs) (hx' : x' ∈ ys) (hy' : y' ∈ ys)
    (hcx : k'.happening x' = k.happening x) (hcy : k'.happening y' = k.happening y)
    {i j : ActionInstance} (hox : (k.happening x).owner = .step i)
    (hoy : (k.happening y).owner = .step j) (hlate : x.late ≤ y.late) (hlate' : y'.late ≤ x'.late) :
    x.event.id = y.event.id ∨ ∃ s s', k.happening x ∈ s.happenings epsilon ∧
      k.happening y ∈ s'.happenings epsilon ∧
      [s, s'].Sublist steps ∧ [s', s].Sublist steps' := by
  obtain ⟨m, s, hs, rfl, htx, hcs⟩ := (h.describes x hx).of_step hox
  obtain ⟨l, s', hs', rfl, hty, hcs'⟩ := (h.describes y hy).of_step hoy
  obtain ⟨m', t, ht, hts, htx', -⟩ := (h'.describes x' hx').of_step (hcx ▸ hox)
  obtain ⟨l', t', ht', hts', hty', -⟩ := (h'.describes y' hy').of_step (hcy ▸ hoy)
  have hdistinct' := (hperm.map TimedStep.step).nodup hdistinct
  obtain rfl : t = s := List.inj_on_of_nodup_map hdistinct
    (hperm.mem_iff.mpr (List.mem_of_getElem? ht)) (List.mem_of_getElem? hs) hts
  obtain rfl : t' = s' := List.inj_on_of_nodup_map hdistinct
    (hperm.mem_iff.mpr (List.mem_of_getElem? ht')) (List.mem_of_getElem? hs') hts'
  simp only [Scheduled.late, Prod.Lex.toLex_le_toLex, htx, hty, htx', hty', Turn.rank,
    Nat.add_lt_add_iff_right, Nat.add_right_cancel_iff] at hlate hlate'
  by_cases hsame : t = t'
  · obtain rfl := hsame
    obtain rfl := getElem?_inj_of_step hdistinct hs hs' rfl
    obtain rfl := getElem?_inj_of_step hdistinct' ht ht' rfl
    have hle : x.event.id ≤ y.event.id := by omega
    have hge : y'.event.id ≤ x'.event.id := by omega
    have hactivity : y'.event.activity.id = x'.event.activity.id := by
      refine h'.injective ?_
      change (k'.happening y').owner = (k'.happening x').owner
      rw [hcx, hcy, hox, hoy]
    have hhappening : (k'.happening y').event.id ≤ (k'.happening x').event.id := by
      simp only [happening, Event.id_bare, hactivity]
      exact Nat.sub_le_sub_right hge _
    rw [hcx, hcy] at hhappening
    exact .inl (le_antisymm hle (h.id_le hy hx (hoy.trans hox.symm) hhappening))
  · have hm : m < l := by
      rcases hlate with hlt | ⟨rfl, -⟩
      · exact hlt
      · exact absurd (Option.some.inj (hs.symm.trans hs')) hsame
    have hl : l' < m' := by
      rcases hlate' with hlt | ⟨rfl, -⟩
      · exact hlt
      · exact absurd (Option.some.inj (ht.symm.trans ht')) hsame
    exact .inr ⟨t, t', hcs, hcs', sublist_of_getElem? hm hs hs', sublist_of_getElem? hl ht' ht⟩

include h h' in
theorem tie (hperm : steps.Perm steps') (hdistinct : (steps.map TimedStep.step).Nodup)
    (hx : x ∈ xs) (hy : y ∈ xs) (hx' : x' ∈ ys) (hy' : y' ∈ ys)
    (hcx : k'.happening x' = k.happening x) (hcy : k'.happening y' = k.happening y)
    (hxy : x.notAfter y = true) (hyx : y'.notAfter x' = true) :
    x.event.id = y.event.id ∨ x.time = y.time ∧ x.event.kind = y.event.kind ∧
      ∃ s s', k.happening x ∈ s.happenings epsilon ∧ k.happening y ∈ s'.happenings epsilon ∧
        [s, s'].Sublist steps ∧
        [s', s].Sublist steps' := by
  obtain ⟨htime, hgoal, hkind, hlate, hlate'⟩ :=
    Scheduled.tie (h.same_key h' hx hx' hcx) (h.same_key h' hy hy' hcy) hxy hyx
  have hranks : x.turn.rank ≤ y.turn.rank ∧ y'.turn.rank ≤ x'.turn.rank :=
    ⟨Prod.Lex.monotone_fst _ _ hlate, Prod.Lex.monotone_fst _ _ hlate'⟩
  -- outside of the steps the numbers are the same in both schedules, and they decide
  have hids (hranks : x.turn.rank = y.turn.rank ∧ y'.turn.rank = x'.turn.rank)
      (hxid : (k.happening x).event.id = x.event.id ∧ (k'.happening x').event.id = x'.event.id)
      (hyid : (k.happening y).event.id = y.event.id ∧ (k'.happening y').event.id = y'.event.id) :
      x.event.id = y.event.id := by
    rw [hcx] at hxid
    rw [hcy] at hyid
    simp only [Scheduled.late, Prod.Lex.toLex_le_toLex] at hlate hlate'
    omega
  have hplan : (k.happening x).owner = .plan ↔ (k.happening y).owner = .plan := by
    rw [← (h.describes x hx).isGoal_iff, ← (h.describes y hy).isGoal_iff, hgoal]
  cases hox : (k.happening x).owner with
  | plan =>
      have hoy := hplan.mp hox
      obtain ⟨htx, hxid⟩ := (h.describes x hx).of_plan hox
      obtain ⟨hty, hyid⟩ := (h.describes y hy).of_plan hoy
      obtain ⟨htx', hxid'⟩ := (h'.describes x' hx').of_plan (hcx ▸ hox)
      obtain ⟨hty', hyid'⟩ := (h'.describes y' hy').of_plan (hcy ▸ hoy)
      exact .inl (hids ⟨by rw [htx, hty], by rw [htx', hty']⟩ ⟨hxid, hxid'⟩ ⟨hyid, hyid'⟩)
  | effects m =>
      obtain ⟨htx, hxid⟩ := (h.describes x hx).of_effects hox
      obtain ⟨htx', hxid'⟩ := (h'.describes x' hx').of_effects (hcx ▸ hox)
      cases hoy : (k.happening y).owner with
      | plan => cases hox.symm.trans (hplan.mpr hoy)
      | effects l =>
          obtain ⟨hty, hyid⟩ := (h.describes y hy).of_effects hoy
          obtain ⟨hty', hyid'⟩ := (h'.describes y' hy').of_effects (hcy ▸ hoy)
          exact .inl (hids ⟨by rw [htx, hty], by rw [htx', hty']⟩ ⟨hxid, hxid'⟩ ⟨hyid, hyid'⟩)
      | step j =>
          obtain ⟨l, -, -, -, hty', -⟩ := (h'.describes y' hy').of_step (hcy ▸ hoy)
          simp [htx', hty', Turn.rank] at hranks
  | step i =>
      cases hoy : (k.happening y).owner with
      | plan => cases hox.symm.trans (hplan.mpr hoy)
      | effects l =>
          obtain ⟨m, -, -, -, htx, -⟩ := (h.describes x hx).of_step hox
          obtain ⟨hty, -⟩ := (h.describes y hy).of_effects hoy
          simp [htx, hty, Turn.rank] at hranks
      | step j =>
          exact (h.tie_of_steps h' hperm hdistinct hx hy hx' hy' hcx hcy hox hoy hlate hlate').imp
            id fun hsteps => ⟨htime, EventKind.eq_of_rank hkind, hsteps⟩

end Numbering.Fits

end Ties

section Instants

variable {t : Rat} {f g : Scheduled → Happening}

theorem instants_append (hxs : xs ≠ []) (hx : ∀ x ∈ xs, x.time = t) (hy : ∀ y ∈ ys, t < y.time) :
    Scheduled.instants (xs ++ ys) = xs :: Scheduled.instants ys := by
  have hchain : xs.IsChain fun a b => decide (a.time = b.time) = true := by
    refine (List.pairwise_of_forall_mem_list fun a ha b hb => ?_).isChain
    exact decide_eq_true ((hx a ha).trans (hx b hb).symm)
  rw [Scheduled.instants, List.splitBy_append fun a ha b hb => ?_,
    List.splitBy_of_isChain hxs hchain]
  · rfl
  · have hlt := hy b (List.mem_of_mem_head? hb)
    rw [← hx a (List.mem_of_mem_getLast? ha)] at hlt
    exact decide_eq_false hlt.ne

theorem split_first (hxs : xs.Pairwise fun a b => a.time ≤ b.time) (ht : ∀ x ∈ xs, t ≤ x.time) :
    xs = xs.filter (fun x => x.time = t) ++ xs.filter (fun x => t < x.time) := by
  induction xs with
  | nil => rfl
  | cons x xs ih =>
      obtain ⟨hle, hxs⟩ := List.pairwise_cons.mp hxs
      obtain ⟨htx, ht⟩ := List.forall_mem_cons.mp ht
      rcases htx.eq_or_lt with rfl | hlt
      · rw [List.filter_cons_of_pos (by simp), List.filter_cons_of_neg (by simp), List.cons_append,
          ← ih hxs ht]
      · have hlater (y : Scheduled) (hy : y ∈ x :: xs) : t < y.time := by
          rcases List.mem_cons.mp hy with rfl | hy
          · exact hlt
          · exact hlt.trans_le (hle y hy)
        rw [List.filter_eq_nil_iff.mpr fun y hy => by simp [(hlater y hy).ne'],
          List.filter_eq_self.mpr fun y hy => by simp [hlater y hy], List.nil_append]

theorem perm_instants (hf : ∀ x, (f x).time = x.time) (hg : ∀ x, (g x).time = x.time)
    (hxs : xs.Pairwise fun a b => a.time ≤ b.time) (hys : ys.Pairwise fun a b => a.time ≤ b.time)
    (h : (xs.map f).Perm (ys.map g)) : List.Forall₂ (fun a b => (a.map f).Perm (b.map g))
      (Scheduled.instants xs) (Scheduled.instants ys) := by
  induction hn : xs.length using Nat.strong_induction_on generalizing xs ys with
  | _ n ih =>
      cases hfirst : xs with
      | nil =>
          obtain rfl : ys = [] := by simpa [hfirst] using h.symm
          exact .nil
      | cons x rest =>
          rw [← hfirst]
          have hle (z : Scheduled) (hz : z ∈ xs) : x.time ≤ z.time := by
            rw [hfirst] at hz hxs
            rcases List.mem_cons.mp hz with rfl | hz
            · exact le_rfl
            · exact List.rel_of_pairwise_cons hxs hz
          have hle' (z : Scheduled) (hz : z ∈ ys) : x.time ≤ z.time := by
            obtain ⟨w, hw, hwz⟩ := List.mem_map.mp (h.mem_iff.mpr (List.mem_map_of_mem hz))
            have htime := congrArg Happening.time hwz
            rw [hf, hg] at htime
            exact htime ▸ hle w hw
          have hfilter (p : Rat → Bool) : ((xs.filter fun z => p z.time).map f).Perm
              ((ys.filter fun z => p z.time).map g) := by
            have hperm := h.filter fun a : Happening => p a.time
            simpa only [List.filter_map, Function.comp_def, hf, hg] using hperm
          have hnow := hfilter fun q => q = x.time
          have hlater := hfilter fun q => x.time < q
          have hmem : x ∈ xs.filter fun z => z.time = x.time :=
            List.mem_filter.mpr ⟨hfirst ▸ List.mem_cons_self, by simp⟩
          have hne : (xs.filter fun z => z.time = x.time) ≠ [] := List.ne_nil_of_mem hmem
          have hne' : (ys.filter fun z => z.time = x.time) ≠ [] := by
            intro hnil
            rw [hnil] at hnow
            exact hne (by simpa using hnow)
          have hshort : (xs.filter fun z => x.time < z.time).length < n := by
            rw [← hn]
            refine List.length_filter_lt_length_iff_exists.mpr ⟨x, hfirst ▸ List.mem_cons_self, ?_⟩
            simp
          have hrest := ih _ hshort (hxs.filter _) (hys.filter _) hlater rfl
          rw [split_first hxs hle, split_first hys hle', instants_append hne (t := x.time),
            instants_append hne' (t := x.time)]
          · exact .cons hnow hrest
          all_goals simp

end Instants

end TemporalPlanning
