import KernelR.Proc.Thread

/-!
# The thread arena as a map

The ids of threads are indices into a vector whose dead slots are linked into a free
list and used again (`ThreadArena` of `process.rs`). A slot that was linked twice
would hand one id to two threads, much later and far away.

This module runs the arena from its creation through any list of insertions and
removals, with whatever index, and shows that no client can tell it from a map that
chooses its own keys: every call returns, with an answer the map allows, and the free
list holds exactly the empty slots.
-/

namespace KernelR.Proc

open Foundations

namespace ThreadArena

/-- `ThreadArena::remove`: the slot is swapped for an empty one before it is looked
at, and put back if it was empty. -/
def removeSwap (A : ThreadArena) (pid : ℕ) : ThreadArena × Option Thread :=
  match A.slots[pid]? with
  -- `pid >= self.slots.len()`
  | none => (A, none)
  | some slot =>
    let replaced := A.slots.set pid (.empty A.freeHead)
    match slot with
    | .occupied task => (⟨replaced, some pid⟩, some task)
    | .empty _ => ({ A with slots := replaced.set pid slot }, none)

theorem removeSwap_eq (A : ThreadArena) (pid : ℕ) : A.removeSwap pid = A.remove pid := by
  unfold removeSwap Arena.remove
  cases hslot : A.slots[pid]? with
  | none => rfl
  | some slot =>
    cases slot with
    | occupied task => rfl
    | empty next =>
      have hback : (A.slots.set pid (.empty A.freeHead)).set pid (.empty next) = A.slots := by
        obtain ⟨hlt, hget⟩ := List.getElem?_eq_some_iff.mp hslot
        rw [List.set_set, ← hget, List.set_getElem_self]
      simp only [hback]

/-- A call of the arena; `none` is the panic of a corrupted free list. -/
def call (A : ThreadArena) : MapCall Thread → Option (ThreadArena × MapReply Thread)
  | .insert task => (A.insert task).map fun p => (p.1, .index p.2)
  | .remove pid => some ((A.removeSwap pid).1, .value (A.removeSwap pid).2)
  | .modify pid f => some (A.modify pid f, .value (A.get pid))

/-- One call after the other, with the answers. -/
def calls (A : ThreadArena) : List (MapCall Thread) → Option (ThreadArena × List (MapReply Thread))
  | [] => some (A, [])
  | c :: cs => do
      let (A', r) ← A.call c
      let (A'', rs) ← A'.calls cs
      pure (A'', r :: rs)

/-- **One call.**  From an intact arena every call returns, as the map says, and
leaves the arena intact. -/
theorem call_refines {A : ThreadArena} (h : A.Complete) (c : MapCall Thread) :
    ∃ A' r, A.call c = some (A', r) ∧ MapStep A.get c r A'.get ∧ A'.Complete := by
  cases c with
  | insert task =>
    obtain ⟨A', i, hins, -, hfree, hget, -⟩ := Arena.insert_spec h.wf task
    refine ⟨A', .index i, ?_, ?_, h.insert hins⟩
    · simp only [call, hins, Option.map_some]
    · rw [hget]
      exact .insert hfree
  | remove pid =>
    refine ⟨_, _, rfl, ?_, ?_⟩ <;> simp only [removeSwap_eq]
    · rw [Arena.remove_snd, Arena.get_remove]
      exact .remove
    · exact h.remove pid
  | modify pid f =>
    refine ⟨_, _, rfl, ?_, h.modify pid f⟩
    rw [Arena.get_modify]
    exact .modify

theorem calls_refine {A : ThreadArena} (h : A.Complete) (cs : List (MapCall Thread)) :
    ∃ A' rs, A.calls cs = some (A', rs) ∧ MapRun A.get cs rs A'.get ∧ A'.Complete := by
  induction cs generalizing A with
  | nil => exact ⟨A, [], rfl, .nil, h⟩
  | cons c cs ih =>
    obtain ⟨A', r, hcall, hstep, h'⟩ := call_refines h c
    obtain ⟨A'', rs, hcalls, hrun, h''⟩ := ih h'
    refine ⟨A'', r :: rs, ?_, .cons hstep hrun, h''⟩
    simp only [calls, hcall, hcalls, Option.bind_eq_bind, Option.bind_some, Option.pure_def]

/-- **The arena refines a map with stable ids.**  After any list of calls the chain
from `free_head` visits every empty slot once and no other, no call has panicked,
every answer is the map's, and removing what is not there changes nothing. -/
theorem refines_map (cs : List (MapCall Thread)) :
    ∃ (A : ThreadArena) (rs : List (MapReply Thread)),
      ThreadArena.calls Arena.new cs = some (A, rs) ∧
      MapRun (fun _ => none) cs rs A.get ∧
      (∃ l, FreeChain A.slots A.freeHead l ∧ l.Nodup ∧
        ∀ i, i ∈ l ↔ ∃ next, A.slots[i]? = some (.empty next)) ∧
      ∀ pid, A.get pid = none → A.removeSwap pid = (A, none) := by
  obtain ⟨A, rs, hcalls, hrun, hcomplete⟩ := calls_refine Arena.complete_new cs
  refine ⟨A, rs, hcalls, hrun, hcomplete, fun pid hnone => ?_⟩
  rw [removeSwap_eq]
  exact Arena.remove_of_get_none hnone

end ThreadArena

end KernelR.Proc
