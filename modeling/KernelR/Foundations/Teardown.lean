import KernelR.Foundations.RadixTree

/-!
# Taking a tree of tables down

A program that frees a tree of tables goes through the entries of a table, frees the tree
behind each of them, and then the table itself. It keeps reading tables while it frees
others, so it relies on the tree not being shared: what it has freed so far is none of what
it still has to read.

Who takes a freed table back may write into it at once, and into what it owns already (`own`).

`Frees F W s s'` says what a piece of such a program does: it frees exactly the tables of
`F`, each once, and no word outside of them and of what was owned before is written, other than
those of `W`. The pieces
compose (`Frees.trans`), a loop over the entries of a table frees what hangs from them
(`Frees.foldl`), and with the table itself this is the whole tree (`Frees.tree`).
-/

namespace KernelR.Foundations

open List

variable {σ τ ι ε : Type*}

/-- From `s` to `s'`, exactly the tables of `F` are freed, each once, and no word outside of
them and of those that were owned before is written, other than those of `W`. -/
structure Frees (mem : σ → τ → ι → ε) (log : σ → List τ) (own : σ → Set τ) (F : Set τ)
    (W : Set (τ × ι)) (s s' : σ) : Prop where
  freed : ∃ l, log s' = l ++ log s ∧ l.Nodup ∧ ∀ t, t ∈ l ↔ t ∈ F
  owned : own s' ⊆ own s ∪ F
  kept : ∀ t i, t ∉ F → t ∉ own s → (t, i) ∉ W → mem s' t i = mem s t i

/-- Paths of at most `n` steps, the first of them in `I`. -/
def Within (n : ℕ) (I : Set ι) (q : List ι) : Prop := q.length ≤ n ∧ ∀ i ∈ q.getLast?, i ∈ I

/-- What the paths of a set reach. -/
def reached (next : ε → Option τ) (mem : τ → ι → ε) (root : τ) (S : List ι → Prop) : Set τ :=
  {t | ∃ q, S q ∧ reach (fun _ => next) mem root q = some t}

section Frees

variable {mem : σ → τ → ι → ε} {log : σ → List τ} {own : σ → Set τ} {F F' : Set τ}
  {W W' : Set (τ × ι)} {s s' s'' : σ}

theorem Frees.refl (s : σ) : Frees mem log own ∅ ∅ s s where
  freed := ⟨[], rfl, nodup_nil, fun _ => iff_of_false not_mem_nil (Set.notMem_empty _)⟩
  owned := Set.subset_union_left
  kept := fun _ _ _ _ _ => rfl

/-- **One piece after another**, on different tables. -/
theorem Frees.trans (h : Frees mem log own F W s s') (h' : Frees mem log own F' W' s' s'')
    (hdisj : Disjoint F F') : Frees mem log own (F ∪ F') (W ∪ W') s s'' where
  freed := by
    obtain ⟨l, hl, hnodup, hmem⟩ := h.freed
    obtain ⟨l', hl', hnodup', hmem'⟩ := h'.freed
    refine ⟨l' ++ l, by rw [hl', hl, append_assoc], ?_, ?_⟩
    · refine hnodup'.append hnodup ?_
      intro t ht' ht
      exact Set.disjoint_left.mp hdisj ((hmem t).mp ht) ((hmem' t).mp ht')
    · intro t
      rw [mem_append, hmem, hmem', Set.mem_union, or_comm]
  owned := by
    rw [← Set.union_assoc]
    exact h'.owned.trans (Set.union_subset_union_left _ h.owned)
  kept := by
    intro t i hF hown hW
    rw [Set.mem_union, not_or] at hF hW
    have hown' : t ∉ own s' := fun hmem => (h.owned hmem).elim hown hF.1
    rw [h'.kept t i hF.2 hown' hW.2, h.kept t i hF.1 hown hW.1]

/-- What is written into a table that is freed does not count. -/
theorem Frees.mono (h : Frees mem log own F W s s')
    (hW : ∀ t i, (t, i) ∈ W → t ∈ F ∨ (t, i) ∈ W') : Frees mem log own F W' s s' where
  freed := h.freed
  owned := h.owned
  kept := by
    intro t i hF hown hW'
    refine h.kept t i hF hown fun hmem => ?_
    rcases hW t i hmem with hin | hin
    · exact hF hin
    · exact hW' hin

end Frees

section Within

variable {n : ℕ} {I J : Set ι} {i : ι} {q r : List ι}

theorem within_nil : Within n I [] := ⟨Nat.zero_le n, fun _ h => by cases h⟩

theorem within_append_singleton : Within (n + 1) I (r ++ [i]) ↔ r.length ≤ n ∧ i ∈ I := by
  unfold Within
  rw [length_append, length_singleton, List.getLast?_append, List.getLast?_singleton,
    Option.some_or]
  simp only [Option.mem_some, forall_eq', Nat.add_le_add_iff_right]

theorem within_univ : Within n Set.univ q ↔ q.length ≤ n := and_iff_left fun _ _ => Set.mem_univ _

theorem Within.mono (h : Within n I q) (hIJ : I ⊆ J) : Within n J q :=
  ⟨h.1, fun i hi => hIJ (h.2 i hi)⟩

theorem Within.mono_length {m : ℕ} (h : Within n I q) (hnm : n ≤ m) : Within m I q :=
  ⟨h.1.trans hnm, h.2⟩

theorem within_tailClosed (n : ℕ) (I : Set ι) : TailClosed (Within n I) := by
  intro q hq
  refine ⟨?_, fun i hi => hq.2 i ?_⟩
  · rw [length_tail]
    exact (Nat.sub_le _ _).trans hq.1
  cases q with
  | nil => cases hi
  | cons j r =>
    cases r with
    | nil => cases hi
    | cons k r => rwa [List.getLast?_cons_cons]

end Within

section Tree

/-- The tables behind the entries `I` of the root, at most `n` steps further down. -/
def hanging (next : ε → Option τ) (mem : τ → ι → ε) (root : τ) (n : ℕ) (I : Set ι) : Set τ :=
  {t | ∃ r i, r.length ≤ n ∧ i ∈ I ∧ reach (fun _ => next) mem root (r ++ [i]) = some t}

variable {next : ε → Option τ} {mem mem' : τ → ι → ε} {root t c : τ} {n : ℕ} {I J : Set ι} {i : ι}
  {q r : List ι}

theorem reach_child (h : next (mem root i) = some c) (r : List ι) :
    reach (fun _ => next) mem root (r ++ [i]) = reach (fun _ => next) mem c r := by
  rw [reach_append_singleton, h, Option.bind_some]

theorem Unshared.child (hunshared : Unshared (fun _ => next) mem root (Within (n + 1) I))
    (hi : i ∈ I) (h : next (mem root i) = some c) :
    Unshared (fun _ => next) mem c (Within n Set.univ) := by
  intro q r t hq hr hqt hrt
  have heq : q ++ [i] = r ++ [i] := hunshared (within_append_singleton.mpr ⟨hq.1, hi⟩)
    (within_append_singleton.mpr ⟨hr.1, hi⟩) ((reach_child h q).trans hqt)
    ((reach_child h r).trans hrt)
  exact append_cancel_right heq

theorem Unshared.root_notMem (hunshared : Unshared (fun _ => next) mem root (Within (n + 1) I)) :
    root ∉ hanging next mem root n I := by
  rintro ⟨r, i, hr, hi, hroot⟩
  have heq : r ++ [i] = [] := hunshared (within_append_singleton.mpr ⟨hr, hi⟩) within_nil hroot rfl
  exact append_ne_nil_of_right_ne_nil r (cons_ne_nil i []) heq

theorem reached_within_succ :
    reached next mem root (Within (n + 1) I) = hanging next mem root n I ∪ {root} := by
  ext t
  constructor
  · rintro ⟨q, hq, ht⟩
    rcases eq_nil_or_concat q with rfl | ⟨r, i, rfl⟩
    · exact Or.inr (Option.some.inj ht).symm
    · rw [List.concat_eq_append] at hq ht
      obtain ⟨hr, hi⟩ := within_append_singleton.mp hq
      exact Or.inl ⟨r, i, hr, hi, ht⟩
  · rintro (⟨r, i, hr, hi, ht⟩ | rfl)
    · exact ⟨r ++ [i], within_append_singleton.mpr ⟨hr, hi⟩, ht⟩
    · exact ⟨[], within_nil, rfl⟩

theorem hanging_singleton (h : next (mem root i) = some c) :
    hanging next mem root n {i} = reached next mem c (Within n Set.univ) := by
  ext t
  constructor
  · rintro ⟨r, j, hr, rfl, ht⟩
    exact ⟨r, within_univ.mpr hr, (reach_child h r).symm.trans ht⟩
  · rintro ⟨r, hr, ht⟩
    exact ⟨r, i, hr.1, rfl, (reach_child h r).trans ht⟩

theorem hanging_singleton_of_none (h : next (mem root i) = none) :
    hanging next mem root n {i} = ∅ := by
  refine Set.eq_empty_of_forall_notMem ?_
  rintro t ⟨r, j, -, rfl, ht⟩
  rw [reach_append_singleton, h] at ht
  cases ht

theorem hanging_union : hanging next mem root n (I ∪ J) =
    hanging next mem root n I ∪ hanging next mem root n J := by
  ext t
  constructor
  · rintro ⟨r, i, hr, hi | hi, ht⟩
    · exact Or.inl ⟨r, i, hr, hi, ht⟩
    · exact Or.inr ⟨r, i, hr, hi, ht⟩
  · rintro (⟨r, i, hr, hi, ht⟩ | ⟨r, i, hr, hi, ht⟩)
    · exact ⟨r, i, hr, Or.inl hi, ht⟩
    · exact ⟨r, i, hr, Or.inr hi, ht⟩

theorem Unshared.disjoint_hanging
    (hunshared : Unshared (fun _ => next) mem root (Within (n + 1) (I ∪ J))) (hIJ : Disjoint I J) :
    Disjoint (hanging next mem root n I) (hanging next mem root n J) := by
  refine Set.disjoint_left.mpr ?_
  rintro t ⟨r, i, hr, hi, ht⟩ ⟨r', j, hr', hj, ht'⟩
  have heq : r ++ [i] = r' ++ [j] := hunshared
    (within_append_singleton.mpr ⟨hr, Or.inl hi⟩) (within_append_singleton.mpr ⟨hr', Or.inr hj⟩)
    ht ht'
  obtain rfl : i = j := singleton_inj.mp (append_inj' heq rfl).2
  exact Set.disjoint_left.mp hIJ hi hj

end Tree

/-! ### The loop over the entries -/

section Loop

variable {next : ε → Option τ} {mem : σ → τ → ι → ε} {log : σ → List τ} {own : σ → Set τ}
  {root : τ} {n : ℕ} {visit : σ → ι → σ} {s s' : σ} {I J : Set ι} {i : ι}

/-- The body of the loop skips an entry that leads nowhere, and frees the tree behind one
that leads on. -/
structure Visits (next : ε → Option τ) (mem : σ → τ → ι → ε) (log : σ → List τ)
    (own : σ → Set τ) (root : τ) (n : ℕ) (visit : σ → ι → σ) : Prop where
  skip : ∀ s i, next (mem s root i) = none → visit s i = s
  free : ∀ s i c, next (mem s root i) = some c →
    Unshared (fun _ => next) (mem s) c (Within n Set.univ) →
    root ∉ reached next (mem s) c (Within n Set.univ) →
    Disjoint (reached next (mem s) c (Within n Set.univ)) (own s) →
    Frees mem log own (reached next (mem s) c (Within n Set.univ)) {(root, i)} s (visit s i)

theorem Visits.frees (h : Visits next mem log own root n visit)
    (hunshared : Unshared (fun _ => next) (mem s) root (Within (n + 1) I))
    (hown : Disjoint (hanging next (mem s) root n I) (own s)) (hi : i ∈ I) :
    Frees mem log own (hanging next (mem s) root n {i}) {(root, i)} s (visit s i) := by
  cases hc : next (mem s root i) with
  | none =>
    rw [hanging_singleton_of_none hc, h.skip s i hc]
    exact (Frees.refl s).mono fun _ _ hmem => absurd hmem (Set.notMem_empty _)
  | some c =>
    have hsub : hanging next (mem s) root n {i} ⊆ hanging next (mem s) root n I :=
      fun t ⟨r, j, hr, hj, ht⟩ => ⟨r, j, hr, (Set.mem_singleton_iff.mp hj) ▸ hi, ht⟩
    have hroot : root ∉ hanging next (mem s) root n {i} := fun hmem =>
      hunshared.root_notMem (hsub hmem)
    have hown := hown.mono_left hsub
    rw [hanging_singleton hc] at hroot hown ⊢
    exact h.free s i c hc (hunshared.child hi hc) hroot hown

theorem Frees.reach_eq (h : Frees mem log own (hanging next (mem s) root n J) {(root, i)} s s')
    (hi : i ∈ J) (hunshared : Unshared (fun _ => next) (mem s) root (Within (n + 1) (J ∪ I)))
    (hown : Disjoint (reached next (mem s) root (Within (n + 1) (J ∪ I))) (own s))
    (hIJ : Disjoint J I) {q : List ι} (hq : Within (n + 1) I q) :
    reach (fun _ => next) (mem s') root q = reach (fun _ => next) (mem s) root q := by
  have hsub : ∀ {p}, Within (n + 1) I p → Within (n + 1) (J ∪ I) p := fun hp =>
    hp.mono Set.subset_union_right
  refine reach_congr (within_tailClosed _ _) ?_ hq
  intro j p u hjp hu
  have hp := within_tailClosed _ _ hjp
  refine h.kept u j ?_ (Set.disjoint_left.mp hown ⟨p, hsub hp, hu⟩) ?_
  · rintro ⟨r, k, hr, hk, ht⟩
    -- a table that is freed is not on the way
    have heq : p = r ++ [k] := hunshared (hsub hp)
      (within_append_singleton.mpr ⟨hr, Or.inl hk⟩) hu ht
    rw [heq] at hp
    exact Set.disjoint_left.mp hIJ hk (within_append_singleton.mp hp).2
  · intro hmem
    obtain ⟨rfl, rfl⟩ := Prod.mk.inj (Set.mem_singleton_iff.mp hmem)
    obtain rfl : p = [] := hunshared (hsub hp) within_nil hu rfl
    exact Set.disjoint_left.mp hIJ hi (hjp.2 j rfl)

/-- **The loop** frees what hangs from the entries it goes through. -/
theorem Frees.foldl (h : Visits next mem log own root n visit) {l : List ι} (hl : l.Nodup)
    (hunshared : Unshared (fun _ => next) (mem s) root (Within (n + 1) {i | i ∈ l}))
    (hown : Disjoint (reached next (mem s) root (Within (n + 1) {i | i ∈ l})) (own s)) :
    Frees mem log own (hanging next (mem s) root n {i | i ∈ l}) {w | w.1 = root} s
      (l.foldl visit s) := by
  induction l generalizing s with
  | nil =>
    have hempty : hanging next (mem s) root n {i | i ∈ ([] : List ι)} = ∅ := by
      refine Set.eq_empty_of_forall_notMem ?_
      rintro t ⟨r, i, -, hi, -⟩
      cases hi
    rw [hempty]
    exact (Frees.refl s).mono fun _ _ hmem => absurd hmem (Set.notMem_empty _)
  | cons i l ih =>
    rw [nodup_cons] at hl
    have hset : {j | j ∈ i :: l} = {i} ∪ {j | j ∈ l} := by
      ext j
      exact mem_cons
    rw [hset] at hunshared hown ⊢
    have hdisj : Disjoint {i} {j | j ∈ l} := Set.disjoint_singleton_left.mpr hl.1
    have hhanging : Disjoint (hanging next (mem s) root n ({i} ∪ {j | j ∈ l})) (own s) := by
      rw [reached_within_succ] at hown
      exact hown.mono_left Set.subset_union_left
    have hone := h.frees hunshared hhanging (Or.inl rfl : i ∈ _)
    have hsame : ∀ {q}, Within (n + 1) {j | j ∈ l} q → _ := fun hq =>
      hone.reach_eq rfl hunshared hown hdisj hq
    have hunshared' : Unshared (fun _ => next) (mem (visit s i)) root
        (Within (n + 1) {j | j ∈ l}) := by
      intro p q t hp hq hpt hqt
      exact hunshared (hp.mono Set.subset_union_right) (hq.mono Set.subset_union_right)
        ((hsame hp).symm.trans hpt) ((hsame hq).symm.trans hqt)
    have hrest : hanging next (mem (visit s i)) root n {j | j ∈ l} =
        hanging next (mem s) root n {j | j ∈ l} := by
      ext t
      refine exists₂_congr fun r j => and_congr_right fun hr => and_congr_right fun hj => ?_
      rw [hsame (within_append_singleton.mpr ⟨hr, hj⟩)]
    -- what has been freed is owned now, but it is no table that is still to be freed
    have hown' : Disjoint (reached next (mem (visit s i)) root (Within (n + 1) {j | j ∈ l}))
        (own (visit s i)) := by
      refine Set.disjoint_left.mpr fun t ht hmem => ?_
      rw [reached_within_succ, hrest] at ht
      rcases hone.owned hmem with hold | hfreed
      · refine Set.disjoint_left.mp hown ?_ hold
        rw [reached_within_succ, hanging_union]
        exact ht.imp_left Or.inr
      · rcases ht with ht | rfl
        · exact Set.disjoint_left.mp (hunshared.disjoint_hanging hdisj) hfreed ht
        · refine hunshared.root_notMem ?_
          rw [hanging_union]
          exact Or.inl hfreed
    have hboth := hone.trans (hrest ▸ ih hl.2 hunshared' hown') (hunshared.disjoint_hanging hdisj)
    rw [hanging_union]
    refine hboth.mono fun t j hmem => Or.inr ?_
    rcases hmem with hmem | hmem
    · exact congrArg Prod.fst (Set.mem_singleton_iff.mp hmem)
    · exact hmem

/-- **The tree**: the loop, and then the root. -/
theorem Frees.tree (h : Visits next mem log own root n visit) {l : List ι} (hl : l.Nodup)
    (hunshared : Unshared (fun _ => next) (mem s) root (Within (n + 1) {i | i ∈ l}))
    (hown : Disjoint (reached next (mem s) root (Within (n + 1) {i | i ∈ l})) (own s))
    {free : σ → σ} (hfree : ∀ s, Frees mem log own {root} ∅ s (free s)) :
    Frees mem log own (reached next (mem s) root (Within (n + 1) {i | i ∈ l})) ∅ s
      (free (l.foldl visit s)) := by
  have hdisj : Disjoint (hanging next (mem s) root n {i | i ∈ l}) {root} :=
    Set.disjoint_singleton_right.mpr hunshared.root_notMem
  have hloop := Frees.foldl h hl hunshared hown
  rw [reached_within_succ]
  refine (hloop.trans (hfree _) hdisj).mono fun t i hmem => Or.inl ?_
  rcases hmem with hmem | hmem
  · exact Or.inr hmem
  · exact absurd hmem (Set.notMem_empty _)

end Loop

end KernelR.Foundations
