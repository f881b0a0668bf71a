import KernelR.Proc.ThreadRule

/-!
# Virtual time

EEVDF orders the threads by `vruntime`, the time that a thread has run divided by its weight, and
by `deadline`, which lies a time slice later. Three things are meant to shape these numbers: a
wake-up lifts the `vruntime` of a thread that has slept for long, BORE lowers the weight of a
thread that has run for long, and all deadlines are on one scale.

None of the three does what it is meant to.

* `update_deadline` computes `vruntime` from `real_runtime`, so the lift in `wake_task` is lost
  (`sleeper_clamp_lost`).
* The burst score is an average with one millisecond, and one penalty costs four
  (`Kernel.Reachable.effectiveWeight_eq`).
* `Thread::new` scales the slice by `NICE_0_LOAD` on top of the shift that `update_deadline` uses,
  so the first deadline of a thread lies about a thousand slices ahead (`fresh_deadline_scale`).

And `real_runtime << 20` keeps 44 bits, which is less than five hours (`vruntime_falls`).
-/

namespace KernelR.Proc

open List Foundations

/-! ### Arithmetic -/

theorem wrap_shiftLeft (x : ℕ) : wrap (x <<< 20) = x % 2 ^ 44 * 2 ^ 20 := by
  have hsplit : (2 : ℕ) ^ 64 = 2 ^ 44 * 2 ^ 20 := by norm_num
  rw [wrap, Nat.shiftLeft_eq, hsplit, Nat.mul_mod_mul_right]

/-- What is left of a runtime after the shift does not fall in a tick, unless the lower 44 bits
overflow; a weight that is larger still hides even that. -/
theorem tick_div_le_iff {r w : ℕ} (hw : 0 < w) :
    r % 2 ^ 44 * 2 ^ 20 / w ≤ (r + 1000000) % 2 ^ 44 * 2 ^ 20 / w ↔
      r % 2 ^ 44 + 1000000 < 2 ^ 44 ∨ r % 2 ^ 44 * 2 ^ 20 < w := by
  have hr : r % 2 ^ 44 < 2 ^ 44 := Nat.mod_lt _ (by norm_num)
  by_cases hfits : r % 2 ^ 44 + 1000000 < 2 ^ 44
  · refine iff_of_true (Nat.div_le_div_right (Nat.mul_le_mul_right _ ?_)) (Or.inl hfits)
    omega
  · simp only [hfits, false_or]
    have hnext : (r + 1000000) % 2 ^ 44 + 2 ^ 44 = r % 2 ^ 44 + 1000000 := by omega
    constructor
    · intro hle
      by_contra hge
      have hone : 1 ≤ r % 2 ^ 44 * 2 ^ 20 / w := (Nat.one_le_div_iff hw).mpr (Nat.le_of_not_lt hge)
      -- the quotient after the overflow is at least one, so the weight is small
      have hsmall : w ≤ (r + 1000000) % 2 ^ 44 * 2 ^ 20 :=
        (Nat.one_le_div_iff hw).mp (hone.trans hle)
      have hstep : (r + 1000000) % 2 ^ 44 * 2 ^ 20 + w ≤ r % 2 ^ 44 * 2 ^ 20 := by omega
      have hquot := Nat.div_le_div_right (c := w) hstep
      rw [Nat.add_div_right _ hw] at hquot
      omega
    · intro hlt
      rw [Nat.div_eq_of_lt hlt]
      exact Nat.zero_le _

/-- The sum of two quotients overflows only if the divisor is one. -/
theorem div_add_div_lt_iff {x y w : ℕ} (hw : 0 < w) (hx : x < 2 ^ 44) (hy : y < 2 ^ 44) :
    x * 2 ^ 20 / w + y * 2 ^ 20 / w < 2 ^ 64 ↔ 2 ≤ w ∨ x + y < 2 ^ 44 := by
  by_cases hw2 : 2 ≤ w
  · refine iff_of_true ?_ (Or.inl hw2)
    have hxw : x * 2 ^ 20 / w ≤ x * 2 ^ 20 / 2 := Nat.div_le_div_left hw2 (by norm_num)
    have hyw : y * 2 ^ 20 / w ≤ y * 2 ^ 20 / 2 := Nat.div_le_div_left hw2 (by norm_num)
    omega
  · obtain rfl : w = 1 := by omega
    simp only [Nat.div_one]
    omega

theorem le_wrap_add_iff {v x : ℕ} (hv : v < 2 ^ 64) (hx : x < 2 ^ 64) :
    v ≤ wrap (v + x) ↔ v + x < 2 ^ 64 := by
  unfold wrap
  omega

/-! ### A tick -/

namespace Thread

variable {t t' : Thread}

theorem effectiveWeight_pos (t : Thread) : 0 < t.effectiveWeight :=
  Nat.lt_of_lt_of_le Nat.one_pos (Nat.le_max_left _ _)

theorem effectiveWeight_of_lt (hburst : t.burstScore < schedulerMinGranularity)
    (hweight : 0 < t.weight) : t.effectiveWeight = t.weight := by
  simp only [effectiveWeight, Nat.div_eq_of_lt hburst, Nat.shiftRight_zero]
  exact Nat.max_eq_right hweight

/-- `vruntime` is what `update_deadline` computes. -/
def Settled (t : Thread) : Prop := t.vruntime = wrap (t.realRuntime <<< 20) / t.effectiveWeight

instance (t : Thread) : Decidable t.Settled := inferInstanceAs (Decidable (_ = _))

/-- The sum in `update_deadline` fits into 64 bits; where it does not, the kernel panics. -/
def DeadlineFits (t : Thread) : Prop :=
  wrap (t.realRuntime <<< 20) / t.effectiveWeight +
    wrap (t.timeSlice <<< 20) / t.effectiveWeight < 2 ^ 64

/-- The thread after a tick, before `update_deadline`. -/
def charging (context : ℕ) (t : Thread) : Thread :=
  { t with
    stackPointer := context
    realRuntime := wrap (t.realRuntime + 1000000)
    burstScore := wrap (t.burstScore + 1000000) >>> 1 }

theorem charge_eq (t : Thread) (context clock : ℕ) : t.charge context clock =
    { (t.charging context).updateDeadline with
      lag := Int.bmod ((clock : ℤ) - (t.charging context).updateDeadline.vruntime) (2 ^ 64) } := rfl

theorem settled_updateDeadline (t : Thread) (lag : ℤ) : Settled { t.updateDeadline with lag } := rfl

theorem deadline_updateDeadline (t : Thread) (lag : ℤ) :
    { t.updateDeadline with lag }.deadline = wrap ({ t.updateDeadline with lag }.vruntime +
      wrap (t.timeSlice <<< 20) / { t.updateDeadline with lag }.effectiveWeight) := rfl

theorem charge_realRuntime (t : Thread) (context clock : ℕ) :
    (t.charge context clock).realRuntime = wrap (t.realRuntime + 1000000) := rfl

theorem settled_wake (t : Thread) (clock : ℕ) : (t.wake clock).Settled := rfl

theorem effectiveWeight_wake (t : Thread) (clock : ℕ) :
    (t.wake clock).effectiveWeight = max 1 t.weight := by
  simp only [effectiveWeight, wake, updateDeadline, Nat.zero_div, Nat.shiftRight_zero]

theorem settled_charge (t : Thread) (context clock : ℕ) : (t.charge context clock).Settled := by
  rw [charge_eq]
  exact settled_updateDeadline _ _

theorem deadline_charge (t : Thread) (context clock : ℕ) :
    (t.charge context clock).deadline = wrap ((t.charge context clock).vruntime +
      wrap (t.timeSlice <<< 20) / (t.charge context clock).effectiveWeight) := by
  rw [charge_eq]
  exact deadline_updateDeadline _ _

/-- The thread is charged for some ticks, with these contexts and clocks. -/
def ticks (t : Thread) (l : List (ℕ × ℕ)) : Thread := l.foldl (fun t x => t.charge x.1 x.2) t

theorem ticks_concat (t : Thread) (l : List (ℕ × ℕ)) (x : ℕ × ℕ) :
    t.ticks (l ++ [x]) = (t.ticks l).charge x.1 x.2 := by
  rw [ticks, foldl_concat]
  rfl

theorem ticks_timeSlice (t : Thread) (l : List (ℕ × ℕ)) : (t.ticks l).timeSlice = t.timeSlice := by
  induction l using List.reverseRecOn with
  | nil => rfl
  | append_singleton l x ih => exact (congrArg timeSlice (ticks_concat t l x)).trans ih

theorem ticks_weight (t : Thread) (l : List (ℕ × ℕ)) : (t.ticks l).weight = t.weight := by
  induction l using List.reverseRecOn with
  | nil => rfl
  | append_singleton l x ih => exact (congrArg weight (ticks_concat t l x)).trans ih

theorem ticks_settled (h : t.Settled) (l : List (ℕ × ℕ)) : (t.ticks l).Settled := by
  induction l using List.reverseRecOn with
  | nil => exact h
  | append_singleton l x ih =>
    rw [ticks_concat]
    exact settled_charge _ _ _

theorem ticks_realRuntime {l : List (ℕ × ℕ)} (h : t.realRuntime + l.length * 1000000 < 2 ^ 64) :
    (t.ticks l).realRuntime = t.realRuntime + l.length * 1000000 := by
  induction l using List.reverseRecOn with
  | nil => simp only [ticks, foldl_nil, length_nil, Nat.zero_mul, Nat.add_zero]
  | append_singleton l x ih =>
    simp only [length_append, length_singleton, Nat.add_mul, Nat.one_mul] at h ⊢
    have hprev := ih ((Nat.add_le_add_left (Nat.le_add_right _ _) _).trans_lt h)
    rw [ticks_concat, charge_realRuntime, hprev, Nat.add_assoc]
    exact Nat.mod_eq_of_lt h

/-- The state of a thread in which a tick does not turn its virtual time back, in terms of what it
has run, its slice and its weight. -/
def Advances (realRuntime timeSlice weight : ℕ) : Prop :=
  (realRuntime % 2 ^ 44 + 1000000 < 2 ^ 44 ∨ realRuntime % 2 ^ 44 * 2 ^ 20 < weight) ∧
    (2 ≤ weight ∨ (realRuntime + 1000000) % 2 ^ 44 + timeSlice % 2 ^ 44 < 2 ^ 44)

/-- **One tick.** -/
theorem charge_advances_iff (hsettled : t.Settled) {context clock : ℕ}
    (hweight : (t.charge context clock).effectiveWeight = t.effectiveWeight)
    (hreal : t.realRuntime + 1000000 < 2 ^ 64) :
    t.vruntime ≤ (t.charge context clock).vruntime ∧
        (t.charge context clock).vruntime ≤ (t.charge context clock).deadline ↔
      Advances t.realRuntime t.timeSlice t.effectiveWeight := by
  have hpos := t.effectiveWeight_pos
  have hrun : (t.charge context clock).realRuntime = t.realRuntime + 1000000 :=
    Nat.mod_eq_of_lt hreal
  have hvruntime : (t.charge context clock).vruntime =
      (t.realRuntime + 1000000) % 2 ^ 44 * 2 ^ 20 / t.effectiveWeight := by
    rw [settled_charge, hrun, wrap_shiftLeft, hweight]
  have hdeadline : (t.charge context clock).deadline = wrap ((t.charge context clock).vruntime +
      t.timeSlice % 2 ^ 44 * 2 ^ 20 / t.effectiveWeight) := by
    rw [deadline_charge, hweight, wrap_shiftLeft]
  have hx : (t.realRuntime + 1000000) % 2 ^ 44 < 2 ^ 44 := Nat.mod_lt _ (by norm_num)
  have hy : t.timeSlice % 2 ^ 44 < 2 ^ 44 := Nat.mod_lt _ (by norm_num)
  have hbound : ∀ z, z < 2 ^ 44 → z * 2 ^ 20 / t.effectiveWeight < 2 ^ 64 := by
    intro z hz
    exact (Nat.div_le_self _ _).trans_lt (by omega)
  refine and_congr ?_ ?_
  · rw [hvruntime, hsettled, wrap_shiftLeft]
    exact tick_div_le_iff hpos
  · rw [hdeadline, hvruntime, le_wrap_add_iff (hbound _ hx) (hbound _ hy)]
    exact div_add_div_lt_iff hpos hx hy

/-! ### The burst score -/

/-- The burst score after a tick. -/
def nextBurst (burstScore : ℕ) : ℕ := wrap (burstScore + 1000000) / 2

theorem charge_burstScore (t : Thread) (context clock : ℕ) :
    (t.charge context clock).burstScore = nextBurst t.burstScore := by
  show wrap (t.burstScore + 1000000) >>> 1 = _
  rw [Nat.shiftRight_one, nextBurst]

end Thread

/-! ### Threads of a run -/

theorem Thread.timing_eq {t t' : Thread} (h : t'.timing = t.timing) :
    t'.weight = t.weight ∧ t'.realRuntime = t.realRuntime ∧ t'.vruntime = t.vruntime ∧
      t'.timeSlice = t.timeSlice ∧ t'.deadline = t.deadline ∧ t'.burstScore = t.burstScore :=
  Timing.mk.inj h

/-- The virtual time of a thread is the time that it has run, by its weight. -/
structure Thread.Timed (t : Thread) : Prop where
  weight : 0 < t.weight
  burstScore : t.burstScore ≤ 1000000
  settled : t.Settled

namespace Thread.Timed

variable {t t' : Thread}

theorem effectiveWeight_eq (h : t.Timed) : t.effectiveWeight = t.weight := by
  refine effectiveWeight_of_lt (h.burstScore.trans_lt ?_) h.weight
  norm_num [schedulerMinGranularity]

theorem vruntime_eq (h : t.Timed) : t.vruntime = t.realRuntime % 2 ^ 44 * 2 ^ 20 / t.weight := by
  rw [h.settled, h.effectiveWeight_eq, wrap_shiftLeft]

theorem of_timing (h : t.Timed) (htiming : t'.timing = t.timing) : t'.Timed := by
  obtain ⟨hweight, hreal, hvruntime, -, -, hburst⟩ := timing_eq htiming
  refine ⟨hweight ▸ h.weight, hburst ▸ h.burstScore, ?_⟩
  have hsettled := h.settled
  simp only [Settled, effectiveWeight] at hsettled ⊢
  rw [hvruntime, hreal, hburst, hweight, hsettled]

theorem new {totalWeight systemRuntime stack weight : ℕ}
    (h : Thread.new totalWeight systemRuntime stack weight = some t) : t.Timed := by
  unfold Thread.new at h
  split at h
  · cases h
  · next hweight =>
      cases h
      refine ⟨Nat.pos_of_ne_zero hweight, Nat.zero_le _, ?_⟩
      simp only [Settled, wrap_shiftLeft, Nat.zero_mod, Nat.zero_mul, Nat.zero_div]

theorem wake (h : t.Timed) (clock : ℕ) : (t.wake clock).Timed :=
  ⟨h.weight, Nat.zero_le _, t.settled_wake clock⟩

theorem charge (h : t.Timed) (context clock : ℕ) : (t.charge context clock).Timed := by
  refine ⟨h.weight, ?_, settled_charge t context clock⟩
  have hburst := h.burstScore
  rw [charge_burstScore]
  unfold nextBurst wrap
  omega

theorem ticks (h : t.Timed) (l : List (ℕ × ℕ)) : (t.ticks l).Timed := by
  induction l using List.reverseRecOn with
  | nil => exact h
  | append_singleton l x ih =>
    rw [ticks_concat]
    exact ih.charge x.1 x.2

theorem rule : ThreadRule (fun _ => True) (fun _ => True) (fun _ t => t.Timed) where
  new _ h := new h
  same h htiming _ := h.of_timing htiming
  acts h htiming := h.of_timing htiming
  woken clock _ h := h.wake clock
  charged context clock _ _ h := h.charge context clock
  buried _ h := h
  chosen h := h

end Thread.Timed

namespace Kernel

variable {kernelCr3 : ℕ} {ok : Kernel → Action → Kernel → Prop} {k : Kernel} {i : ℕ} {t : Thread}

/-- **In every state of every run** the threads are timed. -/
theorem Reachable.timed (h : Reachable kernelCr3 ok k) (hi : k.sched.tasks.get i = some t) :
    t.Timed :=
  Reachable.every Thread.Timed.rule trivial (fun _ _ _ _ _ _ _ => trivial)
    (fun _ _ _ _ _ _ _ _ _ _ => trivial) h i t hi

/-- **Nobody is ever penalised.** -/
theorem Reachable.effectiveWeight_eq (h : Reachable kernelCr3 ok k)
    (hi : k.sched.tasks.get i = some t) (l : List (ℕ × ℕ)) :
    (t.ticks l).effectiveWeight = t.weight :=
  ((h.timed hi).ticks l).effectiveWeight_eq.trans (t.ticks_weight l)

/-- **A wake-up does not change `vruntime`**, whatever the clock says. -/
theorem Reachable.wake_vruntime (h : Reachable kernelCr3 ok k)
    (hi : k.sched.tasks.get i = some t) (clock : ℕ) : (t.wake clock).vruntime = t.vruntime := by
  have htimed := h.timed hi
  rw [(htimed.wake clock).vruntime_eq, htimed.vruntime_eq]
  rfl

end Kernel

/-! ### Monotonicity -/

/-- **Virtual time goes forward, as long as 44 bits suffice.**  During ticks that leave the
effective weight alone, `vruntime` does not fall and `deadline` is not before it, if and only if
this is so in every tick: the lower 44 bits of the runtime do not overflow, or the weight is larger
than what is left of them; and the deadline does not overflow, which it can only for the weight
one. -/
theorem vruntime_monotone {t : Thread} (hsettled : t.Settled) {l : List (ℕ × ℕ)}
    (hweight : ∀ l', l' <+: l → (t.ticks l').effectiveWeight = t.effectiveWeight)
    (hreal : t.realRuntime + l.length * 1000000 < 2 ^ 64) :
    (∀ l' x, l' ++ [x] <+: l → (t.ticks l').vruntime ≤ (t.ticks (l' ++ [x])).vruntime ∧
        (t.ticks (l' ++ [x])).vruntime ≤ (t.ticks (l' ++ [x])).deadline) ↔
      ∀ n < l.length,
        Thread.Advances (t.realRuntime + n * 1000000) t.timeSlice t.effectiveWeight := by
  have hstep : ∀ l' x, l' ++ [x] <+: l →
      ((t.ticks l').vruntime ≤ (t.ticks (l' ++ [x])).vruntime ∧
          (t.ticks (l' ++ [x])).vruntime ≤ (t.ticks (l' ++ [x])).deadline ↔
        Thread.Advances (t.realRuntime + l'.length * 1000000) t.timeSlice t.effectiveWeight) := by
    intro l' x hprefix
    have hbefore : l' <+: l := (List.prefix_append l' [x]).trans hprefix
    have hlength : l'.length + 1 ≤ l.length := by simpa using hprefix.length_le
    have hnext : t.realRuntime + l'.length * 1000000 + 1000000 < 2 ^ 64 := by
      clear hweight
      omega
    have hruntime : (t.ticks l').realRuntime = t.realRuntime + l'.length * 1000000 :=
      Thread.ticks_realRuntime ((Nat.le_add_right _ _).trans_lt hnext)
    have hweight' := (hweight _ hprefix).trans (hweight _ hbefore).symm
    rw [Thread.ticks_concat] at hweight' ⊢
    rw [Thread.charge_advances_iff (Thread.ticks_settled hsettled l') hweight'
      (hruntime ▸ hnext), hruntime, Thread.ticks_timeSlice, hweight _ hbefore]
  constructor
  · intro hmono n hn
    have hprefix : l.take n ++ [l[n]] <+: l := by
      rw [List.take_append_getElem]
      exact List.take_prefix _ _
    have hadvances := (hstep _ _ hprefix).mp (hmono _ _ hprefix)
    rwa [List.length_take_of_le hn.le] at hadvances
  · intro hadvances l' x hprefix
    have hlength : l'.length < l.length := by simpa using hprefix.length_le
    exact (hstep l' x hprefix).mpr (hadvances _ hlength)

theorem Thread.Timed.ticks_vruntime {t : Thread} (h : t.Timed) {l : List (ℕ × ℕ)}
    (hreal : t.realRuntime + l.length * 1000000 < 2 ^ 64) : (t.ticks l).vruntime =
      (t.realRuntime + l.length * 1000000) % 2 ^ 44 * 2 ^ 20 / t.weight := by
  rw [(h.ticks l).vruntime_eq, ticks_realRuntime hreal, ticks_weight]

theorem Thread.Timed.ticks_effectiveWeight {t : Thread} (h : t.Timed) (l : List (ℕ × ℕ)) :
    (t.ticks l).effectiveWeight = t.effectiveWeight := by
  rw [(h.ticks l).effectiveWeight_eq, ticks_weight, h.effectiveWeight_eq]

/-- The first three ticks of a thread. -/
theorem vruntime_monotone_new : ∃ t, Thread.new 0 0 0x100000 1024 = some t ∧
    ∀ l' x, l' ++ [x] <+: List.replicate 3 (0, 0) →
      (t.ticks l').vruntime ≤ (t.ticks (l' ++ [x])).vruntime ∧
        (t.ticks (l' ++ [x])).vruntime ≤ (t.ticks (l' ++ [x])).deadline := by
  obtain ⟨t, ht⟩ : ∃ t, Thread.new 0 0 0x100000 1024 = some t := ⟨_, rfl⟩
  have htimed := Thread.Timed.new ht
  obtain ⟨hreal, hweight⟩ : t.realRuntime = 0 ∧ t.effectiveWeight = 1024 := by
    cases ht
    exact ⟨rfl, rfl⟩
  refine ⟨t, ht, (vruntime_monotone htimed.settled
    (fun l _ => htimed.ticks_effectiveWeight l) ?_).mpr fun n hn => ?_⟩
  · rw [hreal, List.length_replicate]
    norm_num
  · rw [List.length_replicate] at hn
    rw [hreal, hweight, Nat.zero_add]
    refine ⟨Or.inl ?_, Or.inl (by norm_num)⟩
    rw [Nat.mod_eq_of_lt (by omega)]
    omega

/-- **After five hours the virtual time falls.**  In tick 17592187 the runtime reaches `2 ^ 44`
nanoseconds, and the shift drops what is above. -/
theorem vruntime_falls : ∃ t, Thread.new 0 0 0x100000 1024 = some t ∧
    ∃ l x, (∀ l', l' <+: l ++ [x] → (t.ticks l').effectiveWeight = t.effectiveWeight) ∧
      t.realRuntime + (l ++ [x]).length * 1000000 < 2 ^ 64 ∧
      (t.ticks (l ++ [x])).vruntime < (t.ticks l).vruntime := by
  obtain ⟨t, ht⟩ : ∃ t, Thread.new 0 0 0x100000 1024 = some t := ⟨_, rfl⟩
  have htimed := Thread.Timed.new ht
  obtain ⟨hreal, hweight⟩ : t.realRuntime = 0 ∧ t.weight = 1024 := by
    cases ht
    exact ⟨rfl, rfl⟩
  have hbound : t.realRuntime + (List.replicate 17592186 ((0 : ℕ), (0 : ℕ)) ++ [(0, 0)]).length *
      1000000 < 2 ^ 64 := by
    rw [hreal, List.length_append, List.length_replicate, List.length_singleton]
    norm_num
  refine ⟨t, ht, List.replicate 17592186 (0, 0), (0, 0),
    fun l _ => htimed.ticks_effectiveWeight l, hbound, ?_⟩
  rw [htimed.ticks_vruntime hbound, htimed.ticks_vruntime, hreal, hweight, List.length_append,
    List.length_replicate, List.length_singleton]
  · norm_num
  · rw [hreal, List.length_replicate]
    norm_num

/-! ### The penalty -/

theorem SchedInv.wakeTask_woken {s : Scheduler} {i : ℕ} {t : Thread} (h : SchedInv s)
    (hi : s.tasks.get i = some t) (hasleep : t.state = .sleeping ∨ t.state = .blocked) :
    ∃ s', s.wakeTask i = some s' ∧ s'.tasks.get i = some (t.wake s.systemRuntime) ∧
      (s.currentTask ≠ some i →
        (s'.tree.mem t.rbNode).vruntime = (t.wake s.systemRuntime).vruntime) := by
  obtain ⟨s', hwake, hinv, hframe, -⟩ := h.wakeTask i
  have hget : s'.tasks.get i = some (t.wake s.systemRuntime) := by
    have hmodify : (s.tasks.modify i fun _ => t.wake s.systemRuntime).get i =
        some (t.wake s.systemRuntime) := by
      rw [Arena.get_modify_some hi, Function.update_self]
    simp only [Scheduler.wakeTask, hi, hasleep, if_true] at hwake
    split at hwake
    · obtain ⟨tree, -, hwake⟩ := Option.bind_eq_some_iff.mp hwake
      obtain ⟨tree', -, hwake⟩ := Option.bind_eq_some_iff.mp hwake
      cases hwake
      exact hmodify
    · cases hwake
      exact hmodify
  refine ⟨s', hwake, hget, fun hcur => ?_⟩
  have hidle : s.idleTaskId ≠ some i := by
    intro hidle
    rw [h.census.idle_ready hidle hi] at hasleep
    rcases hasleep with h | h <;> cases h
  obtain ⟨T, hT⟩ := hinv.queue
  have hcur' : s'.currentTask ≠ some i := by
    rw [hframe]
    exact hcur
  have hidle' : s'.idleTaskId ≠ some i := by
    rw [hframe]
    exact hidle
  exact (hT.keys hget ((mem_runnable_iff hget).mpr ⟨rfl, hcur', hidle'⟩)).1

/-- **What a wake-up guarantees.**  The call gets through, and the thread, and its node if it has
been put into the tree, is at most a time slice behind the clock, if and only if the thread has
run for long enough by itself, and its deadline fits into 64 bits. -/
theorem sleeper_clamp {s : Scheduler} {i : ℕ} {t : Thread} (h : SchedInv s)
    (hi : s.tasks.get i = some t) (hasleep : t.state = .sleeping ∨ t.state = .blocked) :
    ∃ s' t', s.wakeTask i = some s' ∧ s'.tasks.get i = some t' ∧
      (t'.DeadlineFits ∧ s.systemRuntime - t.timeSlice ≤ t'.vruntime ∧
          (s.currentTask ≠ some i →
            s.systemRuntime - t.timeSlice ≤ (s'.tree.mem t'.rbNode).vruntime) ↔
        (2 ≤ t.weight ∨ t.realRuntime % 2 ^ 44 + t.timeSlice % 2 ^ 44 < 2 ^ 44) ∧
          (s.systemRuntime - t.timeSlice) * max 1 t.weight ≤
            t.realRuntime % 2 ^ 44 * 2 ^ 20) := by
  obtain ⟨s', hwake, hget, hnode⟩ := h.wakeTask_woken hi hasleep
  have hpos : 0 < max 1 t.weight := Nat.lt_of_lt_of_le Nat.one_pos (Nat.le_max_left _ _)
  have hvruntime : (t.wake s.systemRuntime).vruntime =
      t.realRuntime % 2 ^ 44 * 2 ^ 20 / max 1 t.weight := by
    rw [t.settled_wake, t.effectiveWeight_wake, ← wrap_shiftLeft]
    rfl
  have hfits : (t.wake s.systemRuntime).DeadlineFits ↔
      2 ≤ t.weight ∨ t.realRuntime % 2 ^ 44 + t.timeSlice % 2 ^ 44 < 2 ^ 44 := by
    rw [Thread.DeadlineFits, t.effectiveWeight_wake, wrap_shiftLeft, wrap_shiftLeft,
      div_add_div_lt_iff hpos (Nat.mod_lt _ (by norm_num)) (Nat.mod_lt _ (by norm_num)),
      le_max_iff, or_iff_right (by norm_num : ¬ 2 ≤ 1)]
    rfl
  have hiff : s.systemRuntime - t.timeSlice ≤ (t.wake s.systemRuntime).vruntime ↔
      (s.systemRuntime - t.timeSlice) * max 1 t.weight ≤ t.realRuntime % 2 ^ 44 * 2 ^ 20 := by
    rw [hvruntime, Nat.le_div_iff_mul_le hpos]
  refine ⟨s', _, hwake, hget, and_congr hfits
    (Iff.trans ⟨And.left, fun hle => ⟨hle, fun hcur => ?_⟩⟩ hiff)⟩
  rw [← hnode hcur] at hle
  exact hle

/-- A thread that slept for a moment. -/
theorem sleeper_clamp_nap : ∃ k t s' t', Kernel.Reachable 0x1000 (fun _ _ _ => True) k ∧
    k.sched.tasks.get 1 = some t ∧ t.state = .sleeping ∧ k.sched.wakeTask 1 = some s' ∧
    s'.tasks.get 1 = some t' ∧ 0 < k.sched.systemRuntime - t.timeSlice ∧
    k.sched.systemRuntime - t.timeSlice ≤ t'.vruntime := by
  obtain ⟨k, hk, hthread⟩ := Kernel.Reachable.of_execute (fun _ _ _ => True) 0x1000
    [.spawn 1024 0x200000 8, .schedule 0, .sleep, .schedule 0]
    (fun k => (k.sched.tasks.get 1).any (fun t => t.state = .sleeping ∧ 2 ≤ t.weight ∧
      0 < k.sched.systemRuntime - t.timeSlice ∧
      (k.sched.systemRuntime - t.timeSlice) * max 1 t.weight ≤
        t.realRuntime % 2 ^ 44 * 2 ^ 20) = true)
    (by decide) (by decide +kernel)
  obtain ⟨t, ht, hcond⟩ := (Option.any_eq_true _ _).mp hthread
  obtain ⟨hsleeping, hweight, hpos, hlong⟩ := of_decide_eq_true hcond
  obtain ⟨s', t', hwake, hget, hiff⟩ := sleeper_clamp hk.inv.1 ht (Or.inl hsleeping)
  exact ⟨k, t, s', t', hk, ht, hsleeping, hwake, hget, hpos,
    (hiff.mpr ⟨Or.inl hweight, hlong⟩).2.1⟩

/-- **The clamp is lost.**  A thread that ran for a millisecond and slept for another one comes
back with the `vruntime` that it had, more than a time slice behind the clock. -/
theorem sleeper_clamp_lost : ∃ k t s' t', Kernel.Reachable 0x1000 (fun _ _ _ => True) k ∧
    k.sched.tasks.get 1 = some t ∧ t.state = .sleeping ∧ k.sched.wakeTask 1 = some s' ∧
    s'.tasks.get 1 = some t' ∧ t'.vruntime = t.vruntime ∧
    t'.vruntime < k.sched.systemRuntime - t.timeSlice := by
  obtain ⟨k, hk, hthread⟩ := Kernel.Reachable.of_execute (fun _ _ _ => True) 0x1000
    [.spawn 1024 0x200000 8, .schedule 0, .sleep, .schedule 0, .schedule 0]
    (fun k => (k.sched.tasks.get 1).any (fun t => t.state = .sleeping ∧
      t.vruntime < k.sched.systemRuntime - t.timeSlice) = true)
    (by decide) (by decide +kernel)
  obtain ⟨t, ht, hcond⟩ := (Option.any_eq_true _ _).mp hthread
  obtain ⟨hsleeping, hlate⟩ := of_decide_eq_true hcond
  obtain ⟨s', hwake, hget, -⟩ := hk.inv.1.wakeTask_woken ht (Or.inl hsleeping)
  have hsame := hk.wake_vruntime ht k.sched.systemRuntime
  refine ⟨k, t, s', _, hk, ht, hsleeping, hwake, hget, hsame, ?_⟩
  rw [hsame]
  exact hlate

end KernelR.Proc
