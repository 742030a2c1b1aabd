import Mathlib.Data.Nat.Choose.Basic
import TemporalPlanning.Proofs.ConstraintSequences

namespace TemporalPlanning.Network

/-- The nodes in line for a turn, and the potentials as they stand. -/
structure Queue (ν : Type) where
  line : List ν
  potentials : OrderedMap ν Rat

variable {ν : Type} [DecidableEq ν]

namespace Queue

def turn (rows : Rows ν) (tail : ν) (q : Queue ν) : Option (Queue ν) :=
  match q.line with
  | [] => none
  | a :: line =>
      (lowerRow tail (level q.potentials a) line (rows.row a).entries [] q.potentials).map
        fun s => ⟨line ++ s.1, s.2⟩

inductive Turns (rows : Rows ν) (tail : ν) : Nat → Queue ν → Queue ν → Prop
  | refl (q : Queue ν) : Turns rows tail 0 q q
  | next {n : Nat} {q r last : Queue ν} (first : q.turn rows tail = some r)
      (others : Turns rows tail n r last) : Turns rows tail (n + 1) q last

def ReachesTail (rows : Rows ν) (tail : ν) (q : Queue ν) : Prop :=
  ∃ a line w, q.line = a :: line ∧ rows.weight? a tail = some w ∧
    level q.potentials a + w < level q.potentials tail

def outcome (q : Queue ν) : Spread ν :=
  if q.line = [] then .settled q.potentials else .tailLowered

variable {rows : Rows ν} {tail : ν} {m n : Nat} {q r last : Queue ν}

theorem Turns.trans (h : Turns rows tail m q r) (h' : Turns rows tail n r last) :
    Turns rows tail (m + n) q last := by
  induction h with
  | refl q => rwa [Nat.zero_add]
  | next first _ ih =>
      rw [Nat.succ_add]
      exact .next first (ih h')

theorem Turns.le_of_ended (h : Turns rows tail n q last) (hlast : last.turn rows tail = none)
    (h' : Turns rows tail m q r) : m ≤ n := by
  induction h generalizing m with
  | refl q =>
      cases h' with
      | refl => exact Nat.le_refl 0
      | next first _ => simp [hlast] at first
  | next first _ ih =>
      cases h' with
      | refl => exact Nat.zero_le _
      | next first' others' =>
          obtain rfl := Option.some.inj (first.symm.trans first')
          exact Nat.succ_le_succ (ih hlast others')

theorem stands (h : q.turn rows tail = none) : q.line = [] ∨ q.ReachesTail rows tail := by
  obtain ⟨line, p⟩ := q
  cases line with
  | nil => exact .inl rfl
  | cons a line =>
      obtain ⟨w, hw, hlt⟩ := lowerRow_eq_none (Option.map_eq_none_iff.mp h)
      exact .inr ⟨a, line, w, rfl, mem_row_iff.mp hw, hlt⟩

end Queue

section Row

variable {tail : ν} {base : Rat} {waiting next : List ν} {row : List (ν × Rat)}
  {p : OrderedMap ν Rat} {s' : List ν × OrderedMap ν Rat}

theorem lowerRow_append (more : List ν) : lowerRow tail base waiting row (next ++ more) p =
    (lowerRow tail base (waiting ++ next) row more p).map fun s => (next ++ s.1, s.2) := by
  induction row generalizing more p with
  | nil => rfl
  | cons e row ih =>
      obtain ⟨b, w⟩ := e
      simp only [lowerRow, List.append_assoc]
      split
      · exact ih more
      · split
        · rfl
        · split
          · exact ih more
          · exact ih (more ++ [b])

theorem nodup_lowerRow (hnodup : (waiting ++ next).Nodup)
    (h : lowerRow tail base waiting row next p = some s') : (waiting ++ s'.1).Nodup := by
  induction row generalizing next p with
  | nil =>
      obtain rfl : (next, p) = s' := by simpa [lowerRow] using h
      exact hnodup
  | cons e row ih =>
      obtain ⟨b, w⟩ := e
      simp only [lowerRow] at h
      split at h
      · exact ih hnodup h
      · split at h
        · simp at h
        · refine ih ?_ h
          split
          · exact hnodup
          · rename_i hb
            rw [← List.append_assoc, ← List.concat_eq_append]
            exact hnodup.concat hb

end Row

namespace Queue

variable {rows : Rows ν} {tail : ν} {passes : Nat} {waiting next : List ν}
  {p : OrderedMap ν Rat} {s' : List ν × OrderedMap ν Rat}

theorem turn_cons (a : ν) : turn rows tail ⟨a :: (waiting ++ next), p⟩ =
    (lowerRow tail (level p a) waiting (rows.row a).entries next p).map
      fun s => ⟨waiting ++ s.1, s.2⟩ := by
  have hrow : lowerRow tail (level p a) waiting (rows.row a).entries (next ++ []) p =
      (lowerRow tail (level p a) (waiting ++ next) (rows.row a).entries [] p).map
        fun s => (next ++ s.1, s.2) := lowerRow_append []
  rw [List.append_nil] at hrow
  rw [turn, hrow, Option.map_map]
  simp [Function.comp_def]

theorem turns_of_pass (h : lowerPass rows tail waiting next p = some s') :
    Turns rows tail waiting.length ⟨waiting ++ next, p⟩ ⟨s'.1, s'.2⟩ := by
  induction waiting generalizing next p with
  | nil =>
      obtain rfl : (next, p) = s' := by simpa [lowerPass] using h
      exact .refl _
  | cons a waiting ih =>
      obtain ⟨s, hs, h⟩ := lowerPass_cons h
      exact .next ((turn_cons a).trans (by rw [hs]; rfl)) (ih h)

theorem turns_of_broken_pass (h : lowerPass rows tail waiting next p = none) :
    ∃ n last, n < waiting.length ∧ Turns rows tail n ⟨waiting ++ next, p⟩ last ∧
      last.turn rows tail = none ∧ last.line ≠ [] := by
  induction waiting generalizing next p with
  | nil => simp [lowerPass] at h
  | cons a waiting ih =>
      simp only [lowerPass] at h
      split at h
      · rename_i hr
        refine ⟨0, _, Nat.succ_pos _, .refl _, (turn_cons a).trans (by rw [hr]; rfl), ?_⟩
        simp
      · rename_i s r hr
        obtain ⟨n, last, hn, hturns, hlast⟩ := ih h
        refine ⟨n + 1, last, Nat.succ_lt_succ hn, ?_, hlast⟩
        exact .next ((turn_cons a).trans (by rw [hr]; rfl)) hturns

theorem nodup_pass (hnodup : (waiting ++ next).Nodup)
    (h : lowerPass rows tail waiting next p = some s') : s'.1.Nodup := by
  induction waiting generalizing next p with
  | nil =>
      obtain rfl : (next, p) = s' := by simpa [lowerPass] using h
      exact hnodup
  | cons a waiting ih =>
      obtain ⟨s, hs, h⟩ := lowerPass_cons h
      exact ih (nodup_lowerRow hnodup.of_cons hs) h

structure Fair (tail : ν) (q : ν → Rat) (done waiting : List ν) (p : OrderedMap ν Rat) : Prop
    extends Final tail q done waiting p where
  once : waiting.Nodup
  tail_mem : tail ∈ p.keys
  tail_notMem : tail ∉ done

namespace Fair

variable {q : ν → Rat} {done : List ν}

theorem length_le (h : Fair tail q done waiting p) :
    waiting.length + done.length + 1 ≤ p.keys.length := by
  have hall : (tail :: (waiting ++ done)).Nodup := by
    refine List.nodup_cons.mpr ⟨fun htail => ?_, h.once.append h.nodup fun x hx hd => ?_⟩
    · rcases List.mem_append.mp htail with htail | htail
      · exact (h.waits tail htail).1 rfl
      · exact h.tail_notMem htail
    · exact (h.waits x hx).2.2 hd
  have hsub : (tail :: (waiting ++ done)).Subperm p.keys := by
    refine hall.subperm fun x hx => ?_
    rcases List.mem_cons.mp hx with rfl | hx
    · exact h.tail_mem
    · rcases List.mem_append.mp hx with hx | hx
      · exact (h.waits x hx).2.1
      · exact h.known x hx
  simpa using hsub.length_le

theorem pass (h : Fair tail q done waiting p) (hq : HoldsBeyond rows tail q)
    (hrows : ∀ a b w, rows.weight? a b = some w → b ∈ p.keys) (hne : waiting ≠ [])
    (hpass : lowerPass rows tail waiting [] p = some s') :
    ∃ x, Fair tail q (x :: done) s'.1 s'.2 := by
  obtain ⟨x, hx, hfinal⟩ := h.toFinal.pass hq hrows hne hpass
  refine ⟨x, hfinal, nodup_pass (by simpa using h.once) hpass, ?_, ?_⟩
  · rw [(lowerPass_lowers hrows hpass).keys]
    exact h.tail_mem
  · rw [List.mem_cons, not_or]
    exact ⟨((h.waits x hx).1).symm, h.tail_notMem⟩

end Fair

theorem turns_of_spread {q : ν → Rat} {done : List ν} {room : Nat}
    (hq : HoldsBeyond rows tail q) (hrows : ∀ a b w, rows.weight? a b = some w → b ∈ p.keys)
    (hf : Fair tail q done waiting p) (hroom : p.keys.length ≤ room + done.length + 1)
    (hs : spread rows tail passes waiting p ≠ .unsettled) :
    ∃ n last, n ≤ (room + 1).choose 2 ∧ Turns rows tail n ⟨waiting, p⟩ last ∧
      last.turn rows tail = none ∧ spread rows tail passes waiting p = last.outcome := by
  induction passes generalizing waiting p done room with
  | zero =>
      cases waiting with
      | nil => exact ⟨0, _, Nat.zero_le _, .refl _, rfl, rfl⟩
      | cons a waiting => exact absurd rfl hs
  | succ passes ih =>
      cases waiting with
      | nil => exact ⟨0, _, Nat.zero_le _, .refl _, rfl, rfl⟩
      | cons a waiting =>
          -- those who wait have their turns, and then there is room for one node less
          have hlength : (a :: waiting).length ≤ room := by
            have := hf.length_le
            omega
          obtain ⟨room, rfl⟩ := Nat.exists_eq_add_one.mpr (Nat.zero_lt_of_lt hlength)
          have hchoose : (room + 1 + 1).choose 2 = (room + 1) + (room + 1).choose 2 := by
            rw [Nat.choose_succ_succ', Nat.choose_one_right]
          simp only [spread] at hs ⊢
          split at hs
          · rename_i hr
            obtain ⟨n, last, hn, hturns, hlast, hline⟩ := turns_of_broken_pass hr
            rw [List.append_nil] at hturns
            exact ⟨n, last, by omega, hturns, hlast, by simp [outcome, hline]⟩
          · rename_i next r hr
            have hk : r.keys = p.keys := (lowerPass_lowers hrows hr).keys
            obtain ⟨x, hx⟩ := hf.pass hq hrows (by simp) hr
            have hroom' : r.keys.length ≤ room + (x :: done).length + 1 := by
              rw [hk, List.length_cons]
              omega
            have hpass := turns_of_pass hr
            rw [List.append_nil] at hpass
            obtain ⟨n, last, hn, hturns, hlast, hout⟩ := ih (hk ▸ hrows) hx hroom' hs
            exact ⟨_, last, by omega, hpass.trans hturns, hlast, hout⟩

end Queue

variable {net : Network ν} {a b : ν} {w : Rat}

def Relaxes (net : Network ν) (a b : ν) (w : Rat) : Prop :=
  (∀ v, net.rows.weight? a b = some v → w < v) ∧
    level net.potentials a + w < level net.potentials b

theorem addBound_of_relaxes (hab : a ≠ b) (h : net.Relaxes a b w) :
    net.addBound a b w = match spread (net.rows.setWeight a b w) a net.potentials.size [b]
        (net.lowerHead a b w) with
      | .settled p => ({ net with rows := net.rows.setWeight a b w, potentials := p }, true)
      | _ => ({ net with rows := net.rows.setWeight a b w }, false) := by
  have htighten : net.addBound a b w = net.tighten a b w := by
    rw [addBound, if_neg hab]
    split
    · rename_i v hv
      exact if_neg (not_le.mpr (h.1 v hv))
    · rfl
  rw [htighten, tighten, if_neg (not_le.mpr h.2)]
  rfl

theorem Feasible.turns_of_bound (hf : net.Feasible) (hab : a ≠ b) (ha : a ∈ net.nodes)
    (hb : b ∈ net.nodes) (w : Rat) : ∃ n last, n ≤ net.nodes.length.choose 2 ∧
      Queue.Turns (net.rows.setWeight a b w) a n ⟨[b], net.lowerHead a b w⟩ last ∧
      last.turn (net.rows.setWeight a b w) a = none ∧
      spread (net.rows.setWeight a b w) a net.potentials.size [b] (net.lowerHead a b w) =
        last.outcome := by
  have hk : (net.lowerHead a b w).keys = net.nodes := keys_lowerHead hb
  have hfair : Queue.Fair a (level net.potentials) [] [b] (net.lowerHead a b w) :=
    ⟨final_lowerHead hab hb, List.nodup_singleton b, hk ▸ ha, List.not_mem_nil⟩
  obtain ⟨room, hroom⟩ := Nat.exists_eq_add_one.mpr (List.length_pos_of_mem ha)
  rw [hroom]
  refine Queue.turns_of_spread (holdsBeyond_setWeight hf.admits) (hf.known_lowerHead ha hb) hfair
    ?_ (spread_lowerHead_ne_unsettled hf hab ha hb)
  rw [hk, hroom]
  rfl

theorem queue_ends {cs : List (Constraint ν)} (hc : ((empty : Network ν).addAll cs).check = true)
    (hab : a ≠ b) (w : Rat) :
    let net := ((empty.addAll cs).addNode a).addNode b
    let rows := net.rows.setWeight a b w
    let start : Queue ν := ⟨[b], net.lowerHead a b w⟩
    ∃ n last, n ≤ net.nodes.length.choose 2 ∧ Queue.Turns rows a n start last ∧
      last.turn rows a = none ∧ (∀ m r, Queue.Turns rows a m start r → m ≤ n) ∧
      (last.line = [] ∨ last.ReachesTail rows a) ∧
      (net.Relaxes a b w → net.addBound a b w =
        if last.line = [] then ({ net with rows := rows, potentials := last.potentials }, true)
        else ({ net with rows := rows }, false)) := by
  intro net rows start
  have hfeasible : net.Feasible :=
    ((represents_sequence cs).exact (Option.isNone_iff_eq_none.mp hc)).1.addNode.addNode
  have ha : a ∈ net.nodes := by simp [net, mem_nodes_addNode]
  have hb : b ∈ net.nodes := by simp [net, mem_nodes_addNode]
  obtain ⟨n, last, hn, hturns, hlast, hspread⟩ := hfeasible.turns_of_bound hab ha hb w
  refine ⟨n, last, hn, hturns, hlast, fun m r => hturns.le_of_ended hlast, Queue.stands hlast,
    fun hrelaxes => ?_⟩
  rw [addBound_of_relaxes hab hrelaxes, hspread, Queue.outcome]
  by_cases hline : last.line = []
  · simp [hline, rows]
  · simp [hline, rows]

def detour : List (Constraint Nat) :=
  [⟨1, 2, none, some 1⟩, ⟨1, 3, none, some 0⟩, ⟨3, 2, none, some 0⟩, ⟨0, 2, some (-20), none⟩]

def detoured : Network Nat := ((empty.addAll detour).addNode 0).addNode 1

def detourRows (w : Rat) : Rows Nat := detoured.rows.setWeight 0 1 w

def detourQueue (w : Rat) : Queue Nat := ⟨[1], detoured.lowerHead 0 1 w⟩

theorem relaxes_detoured {w : Rat} (hw : w < 0) : detoured.Relaxes 0 1 w := by
  have hnew : detoured.rows.weight? 0 1 = none := by decide +kernel
  have htail : level detoured.potentials 0 = 0 := by decide +kernel
  have hhead : level detoured.potentials 1 = 0 := by decide +kernel
  exact ⟨by simp [hnew], by simpa [htail, hhead] using hw⟩

theorem queue_ends_detour : ((empty : Network Nat).addAll detour).check = true ∧ (0 : Nat) ≠ 1 ∧
    (∃ n last, n ≤ 6 ∧ Queue.Turns (detourRows (-10)) 0 n (detourQueue (-10)) last ∧
      last.line = []) ∧
    ∃ n last, n ≤ 6 ∧ Queue.Turns (detourRows (-30)) 0 n (detourQueue (-30)) last ∧
      last.ReachesTail (detourRows (-30)) 0 := by
  have hc : ((empty : Network Nat).addAll detour).check = true := by decide +kernel
  have hab : (0 : Nat) ≠ 1 := by decide
  have hpairs : detoured.nodes.length.choose 2 = 6 := by decide +kernel
  refine ⟨hc, hab, ?_, ?_⟩
  · obtain ⟨n, last, hn, hturns, -, -, -, hanswer⟩ := queue_ends hc hab (-10)
    have haccepted : (detoured.addBound 0 1 (-10)).2 = true := by decide +kernel
    have heq := hanswer (relaxes_detoured (by norm_num))
    refine ⟨n, last, hpairs ▸ hn, hturns, ?_⟩
    by_contra hline
    rw [if_neg hline] at heq
    exact Bool.false_ne_true ((congrArg Prod.snd heq).symm.trans haccepted)
  · obtain ⟨n, last, hn, hturns, -, -, hstands, hanswer⟩ := queue_ends hc hab (-30)
    have hrejected : (detoured.addBound 0 1 (-30)).2 = false := by decide +kernel
    have heq := hanswer (relaxes_detoured (by norm_num))
    refine ⟨n, last, hpairs ▸ hn, hturns, hstands.resolve_left fun hline => ?_⟩
    rw [if_pos hline] at heq
    exact Bool.false_ne_true (hrejected.symm.trans (congrArg Prod.snd heq))

end TemporalPlanning.Network
