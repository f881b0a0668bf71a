import Mathlib.Logic.Function.Basic
import KernelR.Foundations.Code
import KernelR.Foundations.Run

/-!
# Threads on one CPU

The second reading of `Code`: several threads are inside the kernel at the same time, one of them
has the CPU, and the others go on from where they were when they get it back. Every thread has
its own interrupt flag, which is saved and restored with its context; an interrupt comes only
while the flag of the current thread is on, and what it does to the data, a change of the current
thread included, is a parameter.

A thread that finds a spin lock taken has no next step. With its flag off no interrupt comes
either, and nothing happens any more (`step_eq_none`).

`Disciplined` is the invariant that excludes this. Its heart is that whoever holds a lock has the
CPU and has interrupts off, so that nobody else gets to see the lock taken. For the induction it
has to say of every thread that the rest of its code keeps to the policy: of the current thread
with interrupts off, from the data as they are, and of all others, from any data.
-/

namespace KernelR.Foundations

open Function Option Code

variable {σ τ L ι ρ : Type}

/-- A system of threads: data, threads, locks, interrupts and calls. -/
structure Uniprocessor (σ τ L ι ρ : Type) where
  /-- the thread that has the CPU -/
  current : σ → Option τ
  /-- it has not been put to sleep -/
  ready : σ → Bool
  /-- it is about to make a call -/
  calls : σ → Bool
  /-- the code of a call -/
  handler : ρ → Code σ L ℕ
  /-- what interrupts do, and threads that are not in a call -/
  interrupt : ι → σ → Option σ
  /-- the scheduler, when it is called by a software interrupt -/
  reschedule : ι → σ → Option σ

/-- A state: the data, and what every thread has still to execute. -/
structure Core (σ τ L : Type) where
  data : σ
  code : τ → Option (Code σ L ℕ)
  interrupts : τ → Bool
  holder : L → Option τ

/-- The steps. -/
inductive CoreAction (ι ρ : Type) where
  | call (r : ρ)
  /-- the current thread executes a command: with the byte that it loads, if it does, and with
  what the scheduler does, if it calls it -/
  | exec (v : UInt8) (i : ι)
  | interrupt (i : ι)

/-- The lock that the code is about to take. -/
def Code.waitsFor {α : Type} : Code σ L α → Option L
  | .lock l _ => some l
  | _ => none

namespace Core

section Step

variable [DecidableEq τ] [DecidableEq L]

/-- A thread goes on with other code. -/
def goTo (st : Core σ τ L) (t : τ) (k : Code σ L ℕ) : Core σ τ L :=
  { st with code := Function.update st.code t (some k) }

/-- The flag of a thread changes. -/
def setFlag (st : Core σ τ L) (t : τ) (b : Bool) : Core σ τ L :=
  { st with interrupts := Function.update st.interrupts t b }

/-- A lock is taken, or given back. -/
def setHolder (st : Core σ τ L) (l : L) (t : Option τ) : Core σ τ L :=
  { st with holder := Function.update st.holder l t }

/-- The next command of a thread. -/
def exec (U : Uniprocessor σ τ L ι ρ) (st : Core σ τ L) (t : τ) (v : UInt8) (i : ι) :
    Code σ L ℕ → Option (Core σ τ L)
  | .ret _ => some ({ st with code := Function.update st.code t none }.setFlag t true)
  | .fail => none
  | .act f k => (f st.data).map fun (b, data) => { st with data }.goTo t (k b)
  | .load _ k => some (st.goTo t (k v))
  | .store _ _ k => some (st.goTo t k)
  | .flag k => some (st.goTo t (k (st.interrupts t)))
  | .disable k => some ((st.goTo t k).setFlag t false)
  | .enable k => some ((st.goTo t k).setFlag t true)
  | .yield k => (U.reschedule i st.data).map fun data => { st with data }.goTo t k
  | .lock l k => if st.holder l = none then some ((st.goTo t k).setHolder l (some t)) else none
  | .unlock l k => some ((st.goTo t k).setHolder l none)

/-- One step. -/
def step (U : Uniprocessor σ τ L ι ρ) (st : Core σ τ L) : CoreAction ι ρ → Option (Core σ τ L)
  | .call r =>
    (U.current st.data).bind fun t =>
      if U.calls st.data = true ∧ (st.code t).isNone = true then
        some ((st.goTo t (U.handler r)).setFlag t false)
      else none
  | .exec v i => (U.current st.data).bind fun t => (st.code t).bind (st.exec U t v i)
  | .interrupt i =>
    if (U.current st.data).all st.interrupts = true then
      (U.interrupt i st.data).map fun data => { st with data }
    else none

/-- A thread spins: it is about to take a lock that is taken, with interrupts off. -/
def Spins (U : Uniprocessor σ τ L ι ρ) (st : Core σ τ L) (t : τ) (l : L) : Prop :=
  U.current st.data = some t ∧ st.interrupts t = false ∧
    (st.code t).bind Code.waitsFor = some l ∧ st.holder l ≠ none

/-- **A thread that spins** spins for ever. -/
theorem step_eq_none {U : Uniprocessor σ τ L ι ρ} {st : Core σ τ L} {t : τ} {l : L}
    (h : st.Spins U t l) (a : CoreAction ι ρ) : st.step U a = none := by
  obtain ⟨hcurrent, hoff, hwaits, hheld⟩ := h
  obtain ⟨c, hcode, hlock⟩ := bind_eq_some_iff.mp hwaits
  cases a with
  | call r =>
    simp only [step, hcurrent, bind_some, hcode, Option.isNone_some, Bool.false_eq_true,
      and_false, if_false]
  | exec v i =>
    simp only [step, hcurrent, bind_some, hcode]
    cases c with
    | lock l' k =>
      cases hlock
      exact if_neg hheld
    | _ => cases hlock
  | interrupt i =>
    simp only [step, hcurrent, Option.all_some, hoff, Bool.false_eq_true, if_false]

end Step

/-! ### The discipline -/

/-- While a lock is held, interrupts stay off, the CPU is not given up, and the thread is not put
to sleep. -/
def discipline (U : Uniprocessor σ τ L ι ρ) : Policy σ L where
  accessible _ := True
  permitted _ := True
  permits held s s' := (∀ t, U.current s = some t → U.current s' = some t) ∧
    (held ≠ none → U.ready s = true → U.ready s' = true)
  interruptible held := held = none
  lockable i s := i = false ∧ U.ready s = true

/-- The code keeps to the discipline, and ends without a lock. -/
def Keeps (U : Uniprocessor σ τ L ι ρ) (c : Code σ L ℕ) (i : Bool) (held : Option L) (s : σ) :
    Prop :=
  c.wp (discipline U) (fun _ held _ _ => held = none) i held s

variable {U : Uniprocessor σ τ L ι ρ} {st st' : Core σ τ L} {t u : τ} {c : Code σ L ℕ}

/-- The thread has exactly this lock. -/
def Has (st : Core σ τ L) (t : τ) (held : Option L) : Prop :=
  ∀ l, st.holder l = some t ↔ held = some l

/-- What is left of the code of a thread. -/
inductive Follows (U : Uniprocessor σ τ L ι ρ) (st : Core σ τ L) (t : τ) (c : Code σ L ℕ) : Prop
  /-- it may go on from any data -/
  | any : st.Has t none → (∀ s, Keeps U c (st.interrupts t) none s) → Follows U st t c
  /-- it goes on from these -/
  | exact (held : Option L) : U.current st.data = some t → st.interrupts t = false →
      st.Has t held → Keeps U c false held st.data → Follows U st t c

/-- **The invariant.** -/
structure Disciplined (U : Uniprocessor σ τ L ι ρ) (st : Core σ τ L) : Prop where
  code : ∀ t c, st.code t = some c → Follows U st t c
  outside : ∀ t, st.code t = none → st.interrupts t = true ∧ st.Has t none
  holder : ∀ l t, st.holder l = some t →
    U.current st.data = some t ∧ st.interrupts t = false ∧ U.ready st.data = true

theorem Follows.now (h : Follows U st t c) : ∃ held, st.Has t held ∧
    Keeps U c (st.interrupts t) held st.data ∧
    (st.interrupts t = true → held = none ∧ ∀ s, Keeps U c true none s) := by
  cases h with
  | any hhas hkeeps =>
    refine ⟨none, hhas, hkeeps st.data, fun hon => ⟨rfl, ?_⟩⟩
    rwa [hon] at hkeeps
  | exact held _ hoff hhas hkeeps =>
    refine ⟨held, hhas, hoff.symm ▸ hkeeps, fun hon => ?_⟩
    exact nomatch hoff.symm.trans hon

/-- A thread that does not have the CPU may go on from any data. -/
theorem Follows.other (h : Follows U st u c) (ht : U.current st.data = some t) (hne : u ≠ t) :
    st.Has u none ∧ ∀ s, Keeps U c (st.interrupts u) none s := by
  cases h with
  | any hhas hkeeps => exact ⟨hhas, hkeeps⟩
  | exact held hcurrent => exact absurd (some.inj (hcurrent.symm.trans ht)) hne

theorem Has.ne {l : L} (h : st.Has t none) : st.holder l ≠ some t := fun hl => nomatch (h l).mp hl

namespace Disciplined

theorem holder_eq_none (h : Disciplined U st) (ht : U.current st.data = some t)
    (hnone : st.Has t none) (l : L) : st.holder l = none := by
  cases hl : st.holder l with
  | none => rfl
  | some u =>
    obtain ⟨hu, -⟩ := h.holder l u hl
    obtain rfl := some.inj (hu.symm.trans ht)
    exact absurd hl hnone.ne

/-- **Nobody spins.** -/
theorem not_spins (h : Disciplined U st) (t : τ) (l : L) : ¬ st.Spins U t l := by
  rintro ⟨ht, -, hwaits, hheld⟩
  obtain ⟨c, hc, hlock⟩ := bind_eq_some_iff.mp hwaits
  obtain ⟨held, hhas, hkeeps, -⟩ := (h.code t c hc).now
  cases c with
  | lock l' k =>
    obtain rfl := some.inj hlock
    obtain ⟨rfl, -⟩ := hkeeps
    exact hheld (h.holder_eq_none ht hhas l')
  | _ => cases hlock

/-- **A step of the current thread** that leaves the others alone. -/
theorem of_current (h : Disciplined U st) (ht : U.current st.data = some t)
    (hcode : ∀ u, u ≠ t → st'.code u = st.code u)
    (hflag : ∀ u, u ≠ t → st'.interrupts u = st.interrupts u)
    (hother : ∀ u, u ≠ t → ∀ l, st'.holder l = some u ↔ st.holder l = some u)
    (hself : ∀ c, st'.code t = some c → Follows U st' t c)
    (hend : st'.code t = none → st'.interrupts t = true ∧ st'.Has t none)
    (hholder : ∀ l, st'.holder l = some t →
      U.current st'.data = some t ∧ st'.interrupts t = false ∧ U.ready st'.data = true) :
    Disciplined U st' where
  code u c hu := by
    by_cases hut : u = t
    · subst hut
      exact hself c hu
    · rw [hcode u hut] at hu
      obtain ⟨hhas, hkeeps⟩ := (h.code u c hu).other ht hut
      refine .any (fun l => (hother u hut l).trans (hhas l)) ?_
      rwa [hflag u hut]
  outside u hu := by
    by_cases hut : u = t
    · subst hut
      exact hend hu
    · rw [hcode u hut] at hu
      obtain ⟨hon, hhas⟩ := h.outside u hu
      exact ⟨(hflag u hut).trans hon, fun l => (hother u hut l).trans (hhas l)⟩
  holder l u hl := by
    by_cases hut : u = t
    · subst hut
      exact hholder l hl
    · obtain ⟨hu, -⟩ := h.holder l u ((hother u hut l).mp hl)
      exact absurd (some.inj (hu.symm.trans ht)) hut

variable [DecidableEq τ]

/-- **A command that leaves the locks alone.**  After it the thread may go on from any data, or
it still has the CPU and interrupts are off. -/
theorem resume {s' : σ} {k : Code σ L ℕ} {b : Bool} {held : Option L} (h : Disciplined U st)
    (ht : U.current st.data = some t) (hhas : st.Has t held)
    (hk : (held = none ∧ ∀ s, Keeps U k b none s) ∨
      b = false ∧ U.current s' = some t ∧ (held ≠ none → U.ready s' = true) ∧
        Keeps U k false held s') :
    Disciplined U (({ st with data := s' }.goTo t k).setFlag t b) := by
  have hflag : (({ st with data := s' }.goTo t k).setFlag t b).interrupts t = b := by
    simp [setFlag]
  refine h.of_current ht ?_ ?_ (fun _ _ _ => Iff.rfl) ?_ ?_ ?_
  · exact fun u hu => update_of_ne hu _ _
  · exact fun u hu => update_of_ne hu _ _
  · intro c hc
    obtain rfl : k = c := by simpa [goTo, setFlag] using hc
    obtain ⟨rfl, hany⟩ | ⟨rfl, hcurrent, -, hexact⟩ := hk
    · exact .any hhas (hflag.symm ▸ hany)
    · exact .exact held hcurrent hflag hhas hexact
  · intro hc
    simp [goTo, setFlag] at hc
  · intro l hl
    have hheld := (hhas l).mp hl
    obtain ⟨rfl, -⟩ | ⟨rfl, hcurrent, hready, -⟩ := hk
    · cases hheld
    · refine ⟨hcurrent, hflag, hready ?_⟩
      rw [hheld]
      nofun

theorem of_setFlag (h : Disciplined U (st.setFlag t (st.interrupts t))) : Disciplined U st := by
  rwa [setFlag, update_eq_self] at h

theorem advance {s' : σ} {k : Code σ L ℕ} {held : Option L} (h : Disciplined U st)
    (ht : U.current st.data = some t) (hcurrent : U.current s' = some t)
    (hready : held ≠ none → U.ready s' = true) (hhas : st.Has t held)
    (hon : st.interrupts t = true → held = none)
    (hk : ∀ s'', Others (st.interrupts t) s' s'' → Keeps U k (st.interrupts t) held s'') :
    Disciplined U ({ st with data := s' }.goTo t k) := by
  refine of_setFlag (t := t) (h.resume ht hhas ?_)
  show (_ ∧ ∀ s, Keeps U k (st.interrupts t) none s) ∨ st.interrupts t = false ∧ _
  cases hflag : st.interrupts t with
  | true =>
    obtain rfl := hon hflag
    rw [hflag] at hk
    exact Or.inl ⟨rfl, fun s => hk s (Or.inl rfl)⟩
  | false =>
    rw [hflag] at hk
    exact Or.inr ⟨rfl, hcurrent, hready, hk s' (.refl s')⟩

variable [DecidableEq L]

/-- **Locks** are taken and given back with interrupts off. -/
theorem changeHolder {k : Code σ L ℕ} {l : L} {who : Option τ} {held : Option L}
    (h : Disciplined U st) (ht : U.current st.data = some t) (hoff : st.interrupts t = false)
    (hwho : ∀ u, u ≠ t → who ≠ some u ∧ st.holder l ≠ some u)
    (hhas : (st.setHolder l who).Has t held) (hready : held ≠ none → U.ready st.data = true)
    (hk : Keeps U k false held st.data) : Disciplined U ((st.goTo t k).setHolder l who) := by
  refine h.of_current ht ?_ (fun _ _ => rfl) ?_ ?_ ?_ ?_
  · exact fun u hu => update_of_ne hu _ _
  · intro u hu l'
    obtain ⟨hafter, hbefore⟩ := hwho u hu
    by_cases hl : l' = l
    · subst hl
      refine iff_of_false ?_ hbefore
      simpa [setHolder] using hafter
    · simp [setHolder, goTo, update_of_ne hl]
  · intro c hc
    obtain rfl : k = c := by simpa [goTo, setHolder] using hc
    exact .exact held ht hoff hhas hk
  · intro hc
    simp [goTo, setHolder] at hc
  · intro l' hl'
    refine ⟨ht, hoff, hready ?_⟩
    rw [(hhas l').mp hl']
    nofun

/-- **Every command** of code that keeps to the discipline keeps the invariant. -/
theorem exec (h : Disciplined U st) (ht : U.current st.data = some t) (hc : st.code t = some c)
    {v : UInt8} {i : ι} (hexec : st.exec U t v i c = some st') : Disciplined U st' := by
  obtain ⟨held, hhas, hkeeps, hon⟩ := (h.code t c hc).now
  have hnone : st.interrupts t = true → held = none := fun hflag => (hon hflag).1
  -- who has a lock is ready
  have hready : held ≠ none → U.ready st.data = true := by
    intro hheld
    obtain ⟨l, hl⟩ := Option.ne_none_iff_exists'.mp hheld
    exact (h.holder l t ((hhas l).mpr hl)).2.2
  -- nobody else has a lock
  have hothers : ∀ l u, u ≠ t → st.holder l ≠ some u := by
    intro l u hu hl
    exact hu (some.inj ((h.holder l u hl).1.symm.trans ht))
  cases c with
  | ret a =>
    cases hexec
    obtain rfl : held = none := hkeeps
    refine h.of_current ht ?_ ?_ (fun _ _ _ => Iff.rfl) ?_ ?_ ?_
    · exact fun u hu => update_of_ne hu _ _
    · exact fun u hu => update_of_ne hu _ _
    · intro c hc
      simp [setFlag] at hc
    · exact fun _ => ⟨update_self _ _ _, hhas⟩
    · exact fun l hl => absurd hl hhas.ne
  | fail => cases hexec
  | act f k =>
    obtain ⟨⟨b, s'⟩, hf, rfl⟩ := map_eq_some_iff.mp hexec
    obtain ⟨⟨hcurrent, hstays⟩, hk⟩ := hkeeps b s' hf
    exact h.advance ht (hcurrent t ht) (fun hheld => hstays hheld (hready hheld)) hhas hnone hk
  | load addr k =>
    cases hexec
    exact h.advance ht ht hready hhas hnone ((hkeeps trivial).2 v)
  | store addr b k =>
    cases hexec
    exact h.advance ht ht hready hhas hnone (hkeeps trivial).2
  | flag k =>
    cases hexec
    exact h.advance ht ht hready hhas hnone hkeeps
  | disable k =>
    cases hexec
    exact h.resume ht hhas (Or.inr ⟨rfl, ht, hready, hkeeps⟩)
  | enable k =>
    cases hexec
    obtain ⟨rfl, hk⟩ := hkeeps
    exact h.resume ht hhas (Or.inl ⟨rfl, hk⟩)
  | yield k =>
    obtain ⟨s', -, rfl⟩ := map_eq_some_iff.mp hexec
    obtain ⟨rfl, hk⟩ := hkeeps
    exact of_setFlag (t := t) (h.resume ht hhas (Or.inl ⟨rfl, hk⟩))
  | lock l k =>
    obtain ⟨hfree, hexec⟩ := ite_none_right_eq_some.mp hexec
    cases hexec
    obtain ⟨rfl, ⟨hoff, hr⟩, hk⟩ := hkeeps
    refine h.changeHolder ht hoff ?_ ?_ (fun _ => hr) (hoff ▸ hk st.data (.refl _))
    · exact fun u hu => ⟨fun he => hu (some.inj he).symm, hothers l u hu⟩
    · intro l'
      by_cases hl : l' = l
      · subst hl
        exact iff_of_true (update_self _ _ _) rfl
      · have hsame : (st.setHolder l (some t)).holder l' = st.holder l' := update_of_ne hl _ _
        rw [hsame]
        exact iff_of_false hhas.ne fun he => hl (some.inj he).symm
  | unlock l k =>
    cases hexec
    obtain ⟨rfl, hk⟩ := hkeeps
    have hoff : st.interrupts t = false := by
      cases hflag : st.interrupts t with
      | false => rfl
      | true => cases hnone hflag
    refine h.changeHolder ht hoff ?_ ?_ (fun hne => absurd rfl hne) (hoff ▸ hk st.data (.refl _))
    · exact fun u hu => ⟨nofun, hothers l u hu⟩
    · intro l'
      refine iff_of_false ?_ nofun
      by_cases hl : l' = l
      · subst hl
        simp [setHolder]
      · have hsame : (st.setHolder l none).holder l' = st.holder l' := update_of_ne hl _ _
        rw [hsame]
        exact fun he => hl (some.inj ((hhas l').mp he)).symm

/-- **Every step** keeps the invariant, if the code of the calls keeps to the discipline. -/
theorem step (h : Disciplined U st) {a : CoreAction ι ρ} (hstep : st.step U a = some st')
    (hcall : ∀ r, a = .call r → U.calls st.data = true →
      Keeps U (U.handler r) false none st.data) : Disciplined U st' := by
  cases a with
  | call r =>
    obtain ⟨t, ht, hstep⟩ := bind_eq_some_iff.mp hstep
    obtain ⟨⟨hcalls, hcode⟩, hstep⟩ := ite_none_right_eq_some.mp hstep
    cases hstep
    obtain ⟨-, hhas⟩ := h.outside t (isNone_iff_eq_none.mp hcode)
    exact h.resume ht hhas (Or.inr ⟨rfl, ht, fun hne => absurd rfl hne, hcall r rfl hcalls⟩)
  | exec v i =>
    obtain ⟨t, ht, hstep⟩ := bind_eq_some_iff.mp hstep
    obtain ⟨c, hc, hstep⟩ := bind_eq_some_iff.mp hstep
    exact h.exec ht hc hstep
  | interrupt i =>
    obtain ⟨hon, hstep⟩ := ite_none_right_eq_some.mp hstep
    obtain ⟨s', -, rfl⟩ := map_eq_some_iff.mp hstep
    have hflag : ∀ t, U.current st.data = some t → st.interrupts t = true := by
      intro t ht
      rwa [ht] at hon
    refine ⟨fun t c hc => ?_, h.outside, fun l t hl => ?_⟩
    · cases h.code t c hc with
      | any hhas hkeeps => exact .any hhas hkeeps
      | exact held ht hoff => exact nomatch hoff.symm.trans (hflag t ht)
    · obtain ⟨ht, hoff, -⟩ := h.holder l t hl
      exact nomatch hoff.symm.trans (hflag t ht)

end Disciplined

end Core

end KernelR.Foundations
