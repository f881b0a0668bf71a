import Mathlib.Data.List.Infix
import Mathlib.Logic.Function.Basic
import Mathlib.Tactic
import Mathlib.Order.CompletePartialOrder

/-!
# Trees of tables

Tables of entries in memory, where an entry may lead on to another table: `next d e` is
the table that the entry `e` of a table at depth `d` leads to. `reach` follows a path of
indices from the root. Paths name the last index first, so the tables on the way to a
path are those of its tails, and a path leads through `p` if `p` is one of its suffixes.

A program that keeps such a tree changes one entry at a time. The lemmas say what
becomes of all paths if the entry leads to the same table as before
(`reach_setEntry_same`), to a new empty one (`reach_grow`), or nowhere
(`reach_setEntry_dead`). The last two need that no table is reached in two ways,
`Unshared`, which they keep.

Seen as a whole the tree is a partial function from paths to entries, `entryAt`, and the
programs change it at one path.
-/

namespace KernelR.Foundations

open List Function Option

variable {τ ι ε : Type*}

/-- The table at the end of a path, last index first. -/
def reach (next : ℕ → ε → Option τ) (mem : τ → ι → ε) (root : τ) : List ι → Option τ
  | [] => some root
  | i :: p => (reach next mem root p).bind fun t => next p.length (mem t i)

/-- No table is reached in two ways by paths of the set. -/
def Unshared (next : ℕ → ε → Option τ) (mem : τ → ι → ε) (root : τ) (S : List ι → Prop) : Prop :=
  ∀ ⦃p q t⦄, S p → S q → reach next mem root p = some t → reach next mem root q = some t → p = q

/-- With a path, the way to it is in the set. -/
def TailClosed (S : List ι → Prop) : Prop := ∀ ⦃p⦄, S p → S p.tail

/-- With a path, every table on the way to it is in the set. -/
theorem TailClosed.suffix {S : List ι → Prop} (hS : TailClosed S) {p q : List ι} (hp : S p)
    (hqp : q <:+ p) : S q := by
  induction p with
  | nil => rwa [suffix_nil.mp hqp]
  | cons i p ih =>
    rcases suffix_cons_iff.mp hqp with rfl | hq
    · exact hp
    · exact ih (hS hp) hq

section Paths

variable {next : ℕ → ε → Option τ} {mem mem' : τ → ι → ε} {root t : τ} {i : ι} {p q : List ι}
  {S : List ι → Prop}

theorem reach_cons_of_some (h : reach next mem root p = some t) :
    reach next mem root (i :: p) = next p.length (mem t i) := by
  rw [reach, h, bind_some]

theorem reach_eq_none_of_suffix (h : reach next mem root p = none) (hpq : p <:+ q) :
    reach next mem root q = none := by
  obtain ⟨r, rfl⟩ := hpq
  induction r with
  | nil => exact h
  | cons j r ih => rw [cons_append, reach, ih, bind_none]

theorem not_suffix_tail (i : ι) (p : List ι) : ¬ (i :: p) <:+ p := by
  intro h
  have hle := h.length_le
  rw [length_cons] at hle
  omega

theorem reach_congr (hS : TailClosed S)
    (h : ∀ {j r u}, S (j :: r) → reach next mem root r = some u → mem' u j = mem u j)
    (hq : S q) : reach next mem' root q = reach next mem root q := by
  induction q with
  | nil => rfl
  | cons j r ih =>
    rw [reach, reach, ih (hS hq)]
    refine Option.bind_congr fun u hu => ?_
    rw [h hq hu]

theorem reach_of_root_empty (h : ∀ i, next 0 (mem root i) = none) (hq : q ≠ []) :
    reach next mem root q = none := by
  obtain ⟨r, i, rfl⟩ := eq_nil_or_concat q |>.resolve_left hq
  refine reach_eq_none_of_suffix (p := [i]) ?_ ⟨r, (List.concat_eq_append).symm⟩
  rw [reach_cons_of_some rfl]
  exact h i

theorem Unshared.of_root_empty (h : ∀ i, next 0 (mem root i) = none) :
    Unshared next mem root S := by
  have hnil : ∀ {p t}, reach next mem root p = some t → p = [] := by
    intro p t hp
    by_contra hne
    rw [reach_of_root_empty h hne] at hp
    cases hp
  intro p q t _ _ hp hq
  rw [hnil hp, hnil hq]

/-- Paths from the root down: the first step, and the rest from the table it leads to. -/
theorem reach_append_singleton (next : ℕ → ε → Option τ) (mem : τ → ι → ε) (root : τ)
    (r : List ι) (i : ι) :
    reach next mem root (r ++ [i]) =
      (next 0 (mem root i)).bind fun c => reach (fun d => next (d + 1)) mem c r := by
  induction r with
  | nil =>
    rw [List.nil_append, reach, reach, bind_some]
    cases next 0 (mem root i) with
    | none => rfl
    | some c => rfl
  | cons j r ih =>
    rw [cons_append, reach, ih, Option.bind_assoc, length_append]
    rfl

end Paths

section Set

variable [DecidableEq τ] [DecidableEq ι]

/-- Change one entry of one table. -/
def setEntry (mem : τ → ι → ε) (t : τ) (i : ι) (e : ε) : τ → ι → ε :=
  Function.update mem t (Function.update (mem t) i e)

variable {next : ℕ → ε → Option τ} {mem : τ → ι → ε} {root t u f : τ} {i j : ι} {p q : List ι}
  {e z : ε} {S : List ι → Prop}

@[simp] theorem setEntry_self (mem : τ → ι → ε) (t : τ) (i : ι) (e : ε) :
    setEntry mem t i e t i = e := by
  simp [setEntry]

theorem setEntry_of_ne (h : u = t → j ≠ i) : setEntry mem t i e u j = mem u j := by
  unfold setEntry
  by_cases hu : u = t
  · subst hu
    rw [update_self, update_of_ne (h rfl)]
  · rw [update_of_ne hu]

theorem setEntry_table (hu : u ≠ t) : setEntry mem t i e u = mem u := update_of_ne hu _ _

@[simp] theorem setEntry_setEntry (mem : τ → ι → ε) (t : τ) (i : ι) (e z : ε) :
    setEntry (setEntry mem t i e) t i z = setEntry mem t i z := by
  simp [setEntry]

@[simp] theorem setEntry_eq_self (mem : τ → ι → ε) (t : τ) (i : ι) :
    setEntry mem t i (mem t i) = mem := by
  simp [setEntry]

/-- **An entry that leads on as before**: nothing changes. -/
theorem reach_setEntry_same (h : ∀ d, next d e = next d (mem t i)) (q : List ι) :
    reach next (setEntry mem t i e) root q = reach next mem root q := by
  induction q with
  | nil => rfl
  | cons j r ih =>
    rw [reach, reach, ih]
    refine Option.bind_congr fun u _ => ?_
    by_cases hu : u = t ∧ j = i
    · obtain ⟨rfl, rfl⟩ := hu
      rw [setEntry_self, h]
    · rw [setEntry_of_ne fun hut hji => hu ⟨hut, hji⟩]

theorem reach_setEntry_of_not_suffix (hS : TailClosed S) (h : Unshared next mem root S)
    (hp : S p) (ht : reach next mem root p = some t) (hq : S q.tail) (hpq : ¬ (i :: p) <:+ q) :
    reach next (setEntry mem t i e) root q = reach next mem root q := by
  induction q with
  | nil => rfl
  | cons j r ih =>
    have hr : ¬ (i :: p) <:+ r := fun hr => hpq (hr.trans (suffix_cons j r))
    rw [reach, reach, ih (hS hq) hr]
    refine Option.bind_congr fun u hu => ?_
    rw [setEntry_of_ne]
    rintro rfl rfl
    -- the entry itself is on the path
    obtain rfl : r = p := h hq hp hu ht
    exact hpq suffix_rfl

theorem reach_setEntry_self (hS : TailClosed S) (h : Unshared next mem root S) (hp : S p)
    (ht : reach next mem root p = some t) :
    reach next (setEntry mem t i e) root (i :: p) = next p.length e := by
  have hpath := reach_setEntry_of_not_suffix (e := e) hS h hp ht (hS hp) (not_suffix_tail i p)
  rw [reach_cons_of_some (hpath.trans ht), setEntry_self]

/-- **An entry that leads nowhere**: what was behind it is gone. -/
theorem reach_setEntry_dead (hS : TailClosed S) (h : Unshared next mem root S) (hp : S p)
    (ht : reach next mem root p = some t) (he : next p.length e = none) (hpq : (i :: p) <:+ q) :
    reach next (setEntry mem t i e) root q = none :=
  reach_eq_none_of_suffix ((reach_setEntry_self hS h hp ht).trans he) hpq

omit [DecidableEq ι] in
theorem reach_update_of_unreached (hS : TailClosed S) (c : ι → ε)
    (hf : ∀ r, S r → reach next mem root r ≠ some f) (hq : S q.tail) :
    reach next (update mem f c) root q = reach next mem root q := by
  refine reach_congr (S := fun q => S q.tail) (fun _ hp => hS hp) ?_ hq
  intro j r u hr hu
  rw [update_of_ne]
  rintro rfl
  exact hf r hr hu

/-- **A new table**: cleared, and then entered where there was nothing. -/
theorem reach_grow (hS : TailClosed S) (h : Unshared next mem root S) (hp : S p)
    (ht : reach next mem root p = some t) (hold : next p.length (mem t i) = none)
    (hf : ∀ r, S r → reach next mem root r ≠ some f) (hz : ∀ d, next d z = none)
    (he : next p.length e = some f) (hq : S q.tail) :
    reach next (setEntry (update mem f fun _ => z) t i e) root q =
      if q = i :: p then some f else reach next mem root q := by
  have hclear : ∀ {r}, S r.tail →
      reach next (update mem f fun _ => z) root r = reach next mem root r :=
    fun hr => reach_update_of_unreached hS _ hf hr
  have h' : Unshared next (update mem f fun _ => z) root S := by
    intro r r' u hr hr' hu hu'
    rw [hclear (hS hr)] at hu
    rw [hclear (hS hr')] at hu'
    exact h hr hr' hu hu'
  have ht' := (hclear (hS hp)).trans ht
  have hself := reach_setEntry_self (i := i) (e := e) hS h' hp ht'
  by_cases hpq : (i :: p) <:+ q
  · have hnone : reach next mem root (i :: p) = none := (reach_cons_of_some ht).trans hold
    by_cases heq : q = i :: p
    · rw [if_pos heq, heq, hself, he]
    · -- the new table leads nowhere
      rw [if_neg heq, reach_eq_none_of_suffix hnone hpq]
      obtain ⟨r, rfl⟩ := hpq
      obtain ⟨r, j, rfl⟩ := eq_nil_or_concat r |>.resolve_left fun hr => heq (by rw [hr]; rfl)
      refine reach_eq_none_of_suffix (p := j :: i :: p) ?_ ⟨r, by simp⟩
      have hft : f ≠ t := fun hft => hf p hp (hft ▸ ht)
      rw [reach_cons_of_some (hself.trans he), setEntry_table hft, update_self, hz]
  · have hne : q ≠ i :: p := fun heq => hpq (heq ▸ suffix_rfl)
    rw [if_neg hne, reach_setEntry_of_not_suffix hS h' hp ht' hq hpq, hclear hq]

theorem Unshared.grow (hS : TailClosed S) (h : Unshared next mem root S) (hp : S p)
    (ht : reach next mem root p = some t) (hold : next p.length (mem t i) = none)
    (hf : ∀ r, S r → reach next mem root r ≠ some f) (hz : ∀ d, next d z = none)
    (he : next p.length e = some f) :
    Unshared next (setEntry (update mem f fun _ => z) t i e) root S := by
  intro q q' u hq hq' hu hu'
  rw [reach_grow hS h hp ht hold hf hz he (hS hq)] at hu
  rw [reach_grow hS h hp ht hold hf hz he (hS hq')] at hu'
  by_cases hqp : q = i :: p
  · by_cases hqp' : q' = i :: p
    · rw [hqp, hqp']
    · rw [if_pos hqp] at hu
      rw [if_neg hqp'] at hu'
      exact absurd (hu'.trans hu.symm) (hf q' hq')
  · by_cases hqp' : q' = i :: p
    · rw [if_neg hqp] at hu
      rw [if_pos hqp'] at hu'
      exact absurd (hu.trans hu'.symm) (hf q hq)
    · rw [if_neg hqp] at hu
      rw [if_neg hqp'] at hu'
      exact h hq hq' hu hu'

end Set

/-! ### The entries of a tree -/

section Entries

variable [DecidableEq ε]

/-- The entry that a path names, if its table is there and the entry is not empty. -/
def entryAt (next : ℕ → ε → Option τ) (mem : τ → ι → ε) (root : τ) (z : ε) : List ι → Option ε
  | [] => none
  | i :: p => (reach next mem root p).bind fun t => if mem t i = z then none else some (mem t i)

variable {next : ℕ → ε → Option τ} {mem : τ → ι → ε} {root t u f : τ} {i j : ι} {p q : List ι}
  {e z : ε} {S : List ι → Prop}

theorem entryAt_cons_of_some (h : reach next mem root p = some t) :
    entryAt next mem root z (i :: p) = if mem t i = z then none else some (mem t i) := by
  rw [entryAt, h, bind_some]

theorem reach_cons_eq_bind_entryAt (hz : ∀ d, next d z = none) : reach next mem root (i :: p) =
      (entryAt next mem root z (i :: p)).bind (next p.length) := by
  rw [reach, entryAt, Option.bind_assoc]
  refine Option.bind_congr fun u _ => ?_
  by_cases hu : mem u i = z
  · rw [if_pos hu, hu, hz, bind_none]
  · rw [if_neg hu, bind_some]

theorem entryAt_eq_none_of_suffix (hz : ∀ d, next d z = none)
    (h : entryAt next mem root z (i :: p) = none) (hpq : (i :: p) <:+ q) :
    entryAt next mem root z q = none := by
  cases q with
  | nil => rfl
  | cons j r =>
    rcases suffix_cons_iff.mp hpq with heq | hsuffix
    · rwa [← heq]
    · have hnone : reach next mem root (i :: p) = none := by
        rw [reach_cons_eq_bind_entryAt hz, h, bind_none]
      rw [entryAt, reach_eq_none_of_suffix hnone hsuffix, bind_none]

variable [DecidableEq τ] [DecidableEq ι]

/-- **One entry changes**, and no other whose table stays where it is. -/
theorem entryAt_setEntry (h : Unshared next mem root S) (hp : S p)
    (ht : reach next mem root p = some t) (hq : S q)
    (hstay : reach next (setEntry mem t i e) root q = reach next mem root q) :
    entryAt next (setEntry mem t i e) root z (j :: q) =
      if j :: q = i :: p then if e = z then none else some e
      else entryAt next mem root z (j :: q) := by
  by_cases hpath : j :: q = i :: p
  · obtain ⟨rfl, rfl⟩ := List.cons.inj hpath
    rw [if_pos rfl, entryAt_cons_of_some (hstay.trans ht), setEntry_self]
  · rw [if_neg hpath, entryAt, entryAt, hstay]
    refine Option.bind_congr fun u hu => ?_
    rw [setEntry_of_ne]
    rintro rfl rfl
    exact hpath (congrArg _ (h hq hp hu ht))

/-- **A new table** has no entries yet. -/
theorem entryAt_grow (hS : TailClosed S) (h : Unshared next mem root S) (hp : S p)
    (ht : reach next mem root p = some t) (hold : mem t i = z)
    (hf : ∀ r, S r → reach next mem root r ≠ some f) (hz : ∀ d, next d z = none)
    (he : next p.length e = some f) (hq : S q) :
    entryAt next (setEntry (update mem f fun _ => z) t i e) root z (j :: q) =
      if j :: q = i :: p then some e else entryAt next mem root z (j :: q) := by
  have hgrow : ∀ {r}, S r → _ := fun {r} (hr : S r) =>
    reach_grow (q := r) hS h hp ht (hold.symm ▸ hz _) hf hz he (hS hr)
  have hft : f ≠ t := fun hft => hf p hp (hft ▸ ht)
  have hez : e ≠ z := fun hez => by rw [hez, hz] at he; cases he
  by_cases hpath : j :: q = i :: p
  · obtain ⟨rfl, rfl⟩ := List.cons.inj hpath
    have hself : q ≠ j :: q := fun heq => not_suffix_tail j q (heq ▸ suffix_rfl)
    rw [if_pos rfl, entryAt_cons_of_some ((hgrow hp).trans ((if_neg hself).trans ht)),
      setEntry_self, if_neg hez]
  · rw [if_neg hpath, entryAt, entryAt, hgrow hq]
    by_cases hnew : q = i :: p
    · -- below the new table there was nothing before
      have hnone : reach next mem root q = none := by
        rw [hnew, reach_cons_of_some ht, hold, hz]
      rw [if_pos hnew, hnone, bind_some, bind_none, setEntry_table hft, update_self, if_pos rfl]
    · rw [if_neg hnew]
      refine Option.bind_congr fun u hu => ?_
      have huf : u ≠ f := by
        rintro rfl
        exact hf q hq hu
      rw [setEntry_of_ne, update_of_ne huf]
      rintro rfl rfl
      exact hpath (congrArg _ (h hq hp hu ht))

end Entries

end KernelR.Foundations
