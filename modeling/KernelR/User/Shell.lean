import Mathlib.Data.Nat.Find
import Mathlib.Order.Lattice
import Mathlib.Tactic.Common

/-!
# The command line of the shell

`readline` of `sh.c` reads a line and edits it as it is typed. `parse_args` cuts it into words, in
place: it writes a NUL behind each word and enters the address of the word into `argv`.

The line of `parse_args` is a function from indices, `none` outside of the array. A load there is
`none`, and a store is to the place of the last load, so a result says that neither left the line
and its terminator. Pointers into the line are indices, and `none` is the null pointer. The loops
run on fuel; one unit for each character and two more are enough.

The words of a line are its maximal runs of characters that are neither blanks nor tabs, `IsRun`,
and `wordStarts` has the places where they begin.
-/

namespace KernelR.User

open List Function Option

/-- An array of characters. -/
abbrev Chars := ℕ → Option UInt8

/-- A string with its terminator. -/
def cString (text : List UInt8) : Chars := fun j => (text ++ [0])[j]?

/-! ### The tokeniser -/

/-- `*p == ' ' || *p == '\t'` -/
def blank (c : UInt8) : Bool := c == 0x20 || c == 0x09

/-- `*p && *p != ' ' && *p != '\t'` -/
def wordChar (c : UInt8) : Bool := c != 0 && !blank c

/-- Advance a pointer while the character passes the test. -/
def scanWhile (test : UInt8 → Bool) (line : Chars) : ℕ → ℕ → Option ℕ
  | 0, _ => none
  | fuel + 1, p => do
    let c ← line p
    if test c then scanWhile test line fuel (p + 1) else some p

/-- What `parse_args` works on. -/
structure Args where
  line : Chars
  argv : ℕ → Option ℕ
  argc : ℕ

/-- `argv[argc++] = p` -/
def Args.push (s : Args) (p : ℕ) : Args :=
  { s with argv := Function.update s.argv s.argc (some p), argc := s.argc + 1 }

/-- `*p = '\0'` -/
def Args.cut (s : Args) (p : ℕ) : Args := { s with line := Function.update s.line p (some 0) }

/-- The outer loop of `parse_args`. -/
def parseLoop (maxArgs : ℕ) : ℕ → ℕ → Args → Option Args
  | 0, _, _ => none
  | fuel + 1, p, s => do
    let c ← s.line p
    if c ≠ 0 ∧ s.argc < maxArgs - 1 then
      let q ← scanWhile blank s.line fuel p
      let c ← s.line q
      if c = 0 then some s
      else
        let s := s.push q
        let r ← scanWhile wordChar s.line fuel q
        let c ← s.line r
        if c ≠ 0 then parseLoop maxArgs fuel (r + 1) (s.cut r) else parseLoop maxArgs fuel r s
    else some s

/-- `parse_args`: the line with its words ended by zero bytes, and where they begin. -/
def parseArgs (fuel : ℕ) (line : Chars) (argv : ℕ → Option ℕ) (maxArgs : ℕ) : Option Args := do
  let s ← parseLoop maxArgs fuel 0 ⟨line, argv, 0⟩
  some { s with argv := Function.update s.argv s.argc none }

theorem scanWhile_eq {test : UInt8 → Bool} {line : Chars} {p q : ℕ} (hle : p ≤ q)
    (hin : ∀ j, p ≤ j → j < q → ∃ c, line j = some c ∧ test c = true)
    (hstop : ∃ c, line q = some c ∧ test c = false) :
    ∀ fuel, q < p + fuel → scanWhile test line fuel p = some q := by
  intro fuel hfuel
  induction fuel generalizing p with
  | zero => omega
  | succ fuel ih =>
    rw [scanWhile, bind_eq_bind]
    obtain rfl | hlt := Nat.eq_or_lt_of_le hle
    · obtain ⟨c, hc, htest⟩ := hstop
      rw [hc, bind_some, if_neg (by rw [htest]; exact Bool.false_ne_true)]
    · obtain ⟨c, hc, htest⟩ := hin p le_rfl hlt
      rw [hc, bind_some, if_pos htest]
      exact ih hlt (fun j hj => hin j (Nat.le_of_succ_le hj)) (by omega)

/-! ### Words -/

/-- The character at an index is a blank or a tab. -/
def blankAt (text : List UInt8) (j : ℕ) : Bool := text[j]?.any blank

/-- A maximal run of characters other than blanks and tabs, from `a` to before `b`. -/
structure IsRun (text : List UInt8) (a b : ℕ) : Prop where
  lt : a < b
  le : b ≤ text.length
  word : ∀ j, a ≤ j → j < b → ¬ blankAt text j
  left : ∀ j, j + 1 = a → blankAt text j
  right : b < text.length → blankAt text b

/-- Where the runs from an index on begin. -/
def startsFrom (text : List UInt8) (p : ℕ) : List ℕ :=
  (List.range' p (text.length - p)).filter fun i =>
    !blankAt text i && (i == 0 || blankAt text (i - 1))

/-- Where the words of a line begin, from the left. -/
def wordStarts (text : List UInt8) : List ℕ := startsFrom text 0

variable {text : List UInt8} {p q t maxArgs fuel : ℕ} {s s' : Args}

theorem exists_stop (P : ℕ → Prop) {n : ℕ} (hle : p ≤ n) :
    ∃ q, p ≤ q ∧ q ≤ n ∧ (∀ j, p ≤ j → j < q → P j) ∧ (q < n → ¬ P q) := by
  classical
  have h : ∃ j, p ≤ j ∧ (j < n → ¬ P j) := ⟨n, hle, fun hlt => absurd hlt (lt_irrefl n)⟩
  refine ⟨Nat.find h, (Nat.find_spec h).1,
    Nat.find_min' h ⟨hle, fun hlt => absurd hlt (lt_irrefl n)⟩, fun j hj hlt => ?_,
    (Nat.find_spec h).2⟩
  by_contra hP
  exact Nat.find_min h hlt ⟨hj, fun _ => hP⟩

theorem startsFrom_split (hpq : p ≤ q) (hq : q ≤ text.length)
    (hnone : ∀ j, p ≤ j → j < q → blankAt text j ∨ 0 < j ∧ ¬ blankAt text (j - 1)) :
    startsFrom text p = startsFrom text q := by
  have hrange : range' p (text.length - p) =
      range' p (q - p) ++ range' q (text.length - q) := by
    rw [show text.length - p = (q - p) + (text.length - q) by omega, ← range'_append_1,
      Nat.add_sub_cancel' hpq]
  rw [startsFrom, hrange, filter_append, filter_eq_nil_iff.mpr, nil_append]
  · rfl
  · intro j hj
    rw [mem_range'_1] at hj
    obtain hblank | ⟨hpos, hword⟩ := hnone j hj.1 (by omega)
    · simp [hblank]
    · simp [hpos.ne', hword]

theorem exists_run (hlt : q < text.length) (hq : ¬ blankAt text q)
    (hleft : ∀ j, j + 1 = q → blankAt text j) : ∃ t, IsRun text q t := by
  obtain ⟨t, hqt, ht, hword, hend⟩ := exists_stop (¬ blankAt text ·) hlt
  refine ⟨t, hqt, ht, fun j hj hjt => ?_, hleft, fun h => not_not.mp (hend h)⟩
  obtain rfl | hlt' := Nat.eq_or_lt_of_le hj
  · exact hq
  · exact hword j hlt' hjt

theorem mem_wordStarts (a : ℕ) : a ∈ wordStarts text ↔ ∃ b, IsRun text a b := by
  simp only [wordStarts, startsFrom, mem_filter, mem_range'_1, Bool.and_eq_true,
    Bool.not_eq_true', Bool.or_eq_true, beq_iff_eq]
  constructor
  · rintro ⟨⟨-, hlt⟩, hword, hleft⟩
    refine exists_run (by omega) (by simp [hword]) fun j hj => ?_
    rw [← hj] at hleft
    exact hleft.resolve_left j.succ_ne_zero
  · rintro ⟨b, hrun⟩
    have hlt := hrun.lt
    have hle := hrun.le
    refine ⟨by omega, by simpa using hrun.word a le_rfl hlt, ?_⟩
    exact a.eq_zero_or_pos.imp_right fun h => hrun.left _ (by omega)

/-- The scan from a place that is not inside of a run finds the first run and goes on behind it. -/
theorem IsRun.startsFrom (h : IsRun text q t) (hpq : p ≤ q)
    (hblank : ∀ j, p ≤ j → j < q → blankAt text j) :
    startsFrom text p = q :: startsFrom text (min (t + 1) text.length) := by
  have hlt := h.lt
  have hle := h.le
  have hq : q = 0 ∨ blankAt text (q - 1) := q.eq_zero_or_pos.imp_right fun h' => h.left _ (by omega)
  rw [startsFrom_split hpq (by omega) fun j hj hjq => .inl (hblank j hj hjq), User.startsFrom,
    show text.length - q = text.length - (q + 1) + 1 by omega, range'_succ,
    filter_cons_of_pos (by simpa [h.word q le_rfl hlt] using hq)]
  refine congrArg _ (startsFrom_split (by omega) (by omega) fun j hj hjt => ?_)
  by_cases hjt' : j < t
  · exact .inr ⟨by omega, h.word (j - 1) (by omega) (by omega)⟩
  · obtain rfl : j = t := by omega
    exact .inl (h.right (by omega))

/-! ### The line after the cuts -/

/-- A word reads back from the buffer as a string of its own. -/
def Reads (text : List UInt8) (buf : Chars) (a b : ℕ) : Prop :=
  (∀ j, a ≤ j → j < b → buf j = text[j]?) ∧ buf b = some 0

/-- What the loop makes of the words that it still has before it. -/
structure Parsed (text : List UInt8) (maxArgs p : ℕ) (s s' : Args) : Prop where
  argc : s'.argc = s.argc + min (startsFrom text p).length (maxArgs - 1 - s.argc)
  args : ∀ i a, i < maxArgs - 1 - s.argc → (startsFrom text p)[i]? = some a →
    s'.argv (s.argc + i) = some a ∧ ∃ b, IsRun text a b ∧ Reads text s'.line a b
  argv : ∀ i, i < s.argc ∨ s'.argc ≤ i → s'.argv i = s.argv i
  kept : ∀ j, j < p → s'.line j = s.line j
  terminator : s'.line text.length = some 0

/-- The part of the line that the loop has not reached is as it was. -/
def Untouched (text : List UInt8) (buf : Chars) (p : ℕ) : Prop :=
  p ≤ text.length ∧ ∀ j, p ≤ j → buf j = cString text j

theorem Untouched.terminator {buf : Chars} (h : Untouched text buf p) :
    buf text.length = some 0 := by
  rw [h.2 _ h.1]
  simp [cString]

theorem Untouched.char {buf : Chars} (hnul : 0 ∉ text) (h : Untouched text buf p) {j : ℕ}
    (hp : p ≤ j) (hj : j < text.length) :
    ∃ c, buf j = some c ∧ text[j]? = some c ∧ c ≠ 0 ∧ blank c = blankAt text j := by
  have hc := getElem?_eq_getElem hj
  refine ⟨text[j], ?_, hc, fun h => hnul (h ▸ getElem_mem hj), by rw [blankAt, hc]; rfl⟩
  rw [h.2 j hp, cString, getElem?_append_left hj, hc]

/-- A round that stops leaves the rest of the line as it is. -/
theorem Parsed.stop (h : Untouched text s.line p)
    (hstop : startsFrom text p = [] ∨ ¬ s.argc < maxArgs - 1) : Parsed text maxArgs p s s where
  argc := by
    rcases hstop with h | h
    · simp [h]
    · omega
  args i a hi ha := by
    rcases hstop with h | h
    · simp [h] at ha
    · omega
  argv _ _ := rfl
  kept _ _ := rfl
  terminator := h.terminator

/-- The word that a round enters comes before those of the rest. -/
theorem Parsed.cons (hbuf : ∀ j, q ≤ j → j < t → s.line j = text[j]?)
    (hroom : s.argc < maxArgs - 1) (hrun : IsRun text q t) (hpq : p ≤ q)
    (hstarts : startsFrom text p = q :: startsFrom text (min (t + 1) text.length))
    (h : Parsed text maxArgs (min (t + 1) text.length) ((s.push q).cut t) s') :
    Parsed text maxArgs p s s' where
  argc := by
    have hargc : s'.argc = s.argc + 1 + min _ (maxArgs - 1 - (s.argc + 1)) := h.argc
    rw [hstarts, length_cons]
    omega
  args i a hi ha := by
    have hlt := hrun.lt
    have hle := hrun.le
    rw [hstarts] at ha
    cases i with
    | zero =>
      cases ha
      refine ⟨?_, t, hrun, fun j hj hjt => ?_, ?_⟩
      · rw [Nat.add_zero, h.argv _ (.inl (Nat.lt_succ_self _))]
        exact update_self ..
      · rw [h.kept j (by omega), ← hbuf j hj hjt]
        exact update_of_ne hjt.ne _ _
      · obtain rfl | hlt' := Nat.eq_or_lt_of_le hle
        · exact h.terminator
        · rw [h.kept t (by omega)]
          exact update_self ..
    | succ i =>
      rw [show s.argc + (i + 1) = s.argc + 1 + i by omega]
      exact h.args i a (show i < maxArgs - 1 - (s.argc + 1) by omega) ha
  argv i hi := by
    have hargc : s.argc + 1 ≤ s'.argc := h.argc ▸ Nat.le_add_right _ _
    have hcut : s'.argv i = update s.argv s.argc (some q) i :=
      h.argv i (hi.imp_left Nat.lt_succ_of_lt)
    rw [hcut, update_of_ne (by omega)]
  kept j hj := by
    have hlt := hrun.lt
    have hle := hrun.le
    rw [h.kept j (by omega)]
    exact update_of_ne (by omega) _ _
  terminator := h.terminator

theorem parseLoop_full (hbuf : Untouched text s.line p) (hfull : ¬ s.argc < maxArgs - 1) :
    parseLoop maxArgs (fuel + 1) p s = some s := by
  have hp : p < (text ++ [0]).length := by simpa using Nat.lt_succ_of_le hbuf.1
  rw [parseLoop, bind_eq_bind, hbuf.2 p le_rfl, cString, getElem?_eq_getElem hp,
    bind_some, if_neg fun h => hfull h.2]

theorem parseLoop_skip (hnul : 0 ∉ text) (hbuf : Untouched text s.line p)
    (hroom : s.argc < maxArgs - 1) (hlt : p < text.length) (hpq : p ≤ q) (hq : q ≤ text.length)
    (hblank : ∀ j, p ≤ j → j < q → blankAt text j) (hstop : q < text.length → ¬ blankAt text q)
    (hfuel : text.length + 1 ≤ fuel + p) :
    parseLoop maxArgs (fuel + 1) p s = (s.line q).bind fun c => if c = 0 then some s
      else (scanWhile wordChar s.line fuel q).bind fun r => (s.line r).bind fun e =>
        if e ≠ 0 then parseLoop maxArgs fuel (r + 1) ((s.push q).cut r)
        else parseLoop maxArgs fuel r (s.push q) := by
  obtain ⟨c, hc, -, hc0, -⟩ := hbuf.char hnul le_rfl hlt
  have hend : ∃ d, s.line q = some d ∧ blank d = false := by
    obtain rfl | hlt' := Nat.eq_or_lt_of_le hq
    · exact ⟨0, hbuf.terminator, rfl⟩
    · obtain ⟨d, hd, -, -, hdb⟩ := hbuf.char hnul hpq hlt'
      exact ⟨d, hd, by simpa [hdb] using hstop hlt'⟩
  have hskip : scanWhile blank s.line fuel p = some q := by
    refine scanWhile_eq hpq (fun j hj hjq => ?_) hend fuel (by omega)
    obtain ⟨e, he, -, -, heb⟩ := hbuf.char hnul hj (by omega)
    exact ⟨e, he, heb.trans (hblank j hj hjq)⟩
  rw [parseLoop, bind_eq_bind, hc, bind_some, if_pos ⟨hc0, hroom⟩, hskip]
  rfl

/-- A round that finds a word. At the end of the line the cut changes nothing. -/
theorem parseLoop_word (hnul : 0 ∉ text) (hbuf : Untouched text s.line p)
    (hroom : s.argc < maxArgs - 1) (hpq : p ≤ q) (hrun : IsRun text q t)
    (hblank : ∀ j, p ≤ j → j < q → blankAt text j) (hfuel : text.length + 1 ≤ fuel + p) :
    parseLoop maxArgs (fuel + 1) p s =
      parseLoop maxArgs fuel (min (t + 1) text.length) ((s.push q).cut t) := by
  have hqt := hrun.lt
  have ht := hrun.le
  obtain ⟨d, hd, -, hd0, -⟩ := hbuf.char hnul hpq (by omega)
  have hscan (hstop : ∃ e, s.line t = some e ∧ wordChar e = false) :
      scanWhile wordChar s.line fuel q = some t := by
    refine scanWhile_eq hqt.le (fun j hj hjt => ?_) hstop fuel (by omega)
    obtain ⟨e, he, -, he0, heb⟩ := hbuf.char hnul (hpq.trans hj) (by omega)
    exact ⟨e, he, by simp [wordChar, he0, heb, hrun.word j hj hjt]⟩
  rw [parseLoop_skip hnul hbuf hroom (by omega) hpq (by omega) hblank
    (fun _ => hrun.word q le_rfl hqt) hfuel, hd, bind_some, if_neg hd0]
  obtain rfl | hlt := Nat.eq_or_lt_of_le ht
  · have hcut : update s.line text.length (some 0) = s.line := by
      rw [← hbuf.terminator, update_eq_self]
    rw [hscan ⟨0, hbuf.terminator, rfl⟩, bind_some, hbuf.terminator, bind_some,
      if_neg (not_not.mpr rfl), Nat.min_eq_right (Nat.le_succ _)]
    exact congrArg (fun buf => parseLoop maxArgs fuel _ { s.push q with line := buf }) hcut.symm
  · obtain ⟨e, he, -, he0, heb⟩ := hbuf.char hnul (hpq.trans hqt.le) hlt
    rw [hscan ⟨e, he, by simp [wordChar, heb, hrun.right hlt]⟩, bind_some, he, bind_some,
      if_pos he0, Nat.min_eq_left hlt]

theorem parseLoop_parsed (maxArgs : ℕ) (hnul : 0 ∉ text) (hbuf : Untouched text s.line p)
    (hstart : p < text.length → ∀ j, j + 1 = p → blankAt text j) :
    ∃ s', (∀ fuel, text.length + 2 ≤ fuel + p → parseLoop maxArgs fuel p s = some s') ∧
      Parsed text maxArgs p s s' := by
  induction hn : text.length - p using Nat.strong_induction_on generalizing p s with
  | _ n ih =>
    have hle := hbuf.1
    have hpos {fuel} (hfuel : text.length + 2 ≤ fuel + p) : ∃ m, fuel = m + 1 :=
      ⟨fuel - 1, by omega⟩
    by_cases hroom : s.argc < maxArgs - 1
    · obtain ⟨q, hpq, hq, hblank, hstop⟩ := exists_stop (blankAt text ·) hle
      obtain rfl | hlt := Nat.eq_or_lt_of_le hq
      · -- nothing but blanks
        refine ⟨s, fun fuel hfuel => ?_, .stop hbuf (.inl ?_)⟩
        · obtain ⟨m, rfl⟩ := hpos hfuel
          obtain rfl | hlt := Nat.eq_or_lt_of_le hle
          · rw [parseLoop, bind_eq_bind, hbuf.terminator, bind_some, if_neg fun h => h.1 rfl]
          · rw [parseLoop_skip hnul hbuf hroom hlt hpq le_rfl hblank hstop (by omega),
              hbuf.terminator, bind_some, if_pos rfl]
        · rw [startsFrom_split hle le_rfl fun j hj hjn => .inl (hblank j hj hjn), startsFrom,
            Nat.sub_self]
          rfl
      · obtain ⟨t, hrun⟩ := exists_run hlt (hstop hlt) fun j hj => by
          obtain rfl | hlt' := Nat.eq_or_lt_of_le hpq
          · exact hstart hlt j hj
          · exact hblank j (by omega) (by omega)
        have hqt := hrun.lt
        have ht := hrun.le
        have hcut : Untouched text ((s.push q).cut t).line (min (t + 1) text.length) := by
          refine ⟨Nat.min_le_right _ _, fun j hj => ?_⟩
          by_cases hjt : j = t
          · obtain rfl : t = text.length := by omega
            rw [hjt, ← hbuf.2 _ hle, hbuf.terminator]
            exact update_self ..
          · exact (update_of_ne hjt _ _).trans (hbuf.2 j (by omega))
        have hnext : min (t + 1) text.length < text.length →
            ∀ j, j + 1 = min (t + 1) text.length → blankAt text j := by
          intro hlt' j hj
          obtain rfl : j = t := by omega
          exact hrun.right (by omega)
        obtain ⟨s', hs', hparsed⟩ := ih _ (by omega) hcut hnext rfl
        refine ⟨s', fun fuel hfuel => ?_, .cons (fun j hj hjt => ?_) hroom hrun hpq
          (hrun.startsFrom hpq hblank) hparsed⟩
        · obtain ⟨m, rfl⟩ := hpos hfuel
          rw [parseLoop_word hnul hbuf hroom hpq hrun hblank (by omega), hs' m (by omega)]
        · obtain ⟨c, hc, hc', -⟩ := hbuf.char hnul (hpq.trans hj) (by omega)
          rw [hc, hc']
    · refine ⟨s, fun fuel hfuel => ?_, .stop hbuf (.inr hroom)⟩
      obtain ⟨m, rfl⟩ := hpos hfuel
      exact parseLoop_full hbuf hroom

/-- **`parse_args` finds the words of the line.**  It returns without a load or a store outside of
the line and its terminator. The table holds the words of the line from the left, as many as fit
before the null pointer, and each reads back as a string of its own. -/
theorem parseArgs_words {text : List UInt8} (hnul : 0 ∉ text) (maxArgs : ℕ) (argv : ℕ → Option ℕ) :
    (∀ a, a ∈ wordStarts text ↔ ∃ b, IsRun text a b) ∧
      ∃ s', (∀ fuel, text.length + 2 ≤ fuel →
        parseArgs fuel (cString text) argv maxArgs = some s') ∧
      s'.argc = min (wordStarts text).length (maxArgs - 1) ∧ s'.argv s'.argc = none ∧
      (∀ i a, i < s'.argc → (wordStarts text)[i]? = some a →
        s'.argv i = some a ∧ ∃ b, IsRun text a b ∧ Reads text s'.line a b) ∧
      ∀ i, s'.argc < i → s'.argv i = argv i := by
  obtain ⟨s', hs', hparsed⟩ := parseLoop_parsed maxArgs (s := ⟨cString text, argv, 0⟩) hnul
    ⟨Nat.zero_le _, fun _ _ => rfl⟩ (by omega)
  have hargc : s'.argc = min (wordStarts text).length (maxArgs - 1) :=
    hparsed.argc.trans (Nat.zero_add _)
  refine ⟨mem_wordStarts, { s' with argv := update s'.argv s'.argc none },
    fun fuel hfuel => ?_, hargc, update_self .., fun i a hi ha => ?_, fun i hi => ?_⟩
  · rw [parseArgs, bind_eq_bind, hs' fuel hfuel, bind_some]
  · have hi' : i < s'.argc := hi
    obtain ⟨harg, hread⟩ := hparsed.args i a (show i < maxArgs - 1 - 0 by omega) ha
    refine ⟨(update_of_ne hi'.ne _ _).trans ?_, hread⟩
    rw [← harg, Nat.zero_add]
  · have hi' : s'.argc < i := hi
    exact (update_of_ne hi'.ne' _ _).trans (hparsed.argv i (.inr hi'.le))

/-- The line `" ls\t-l "` has two words. -/
theorem parseArgs_words_ls : wordStarts [32, 108, 115, 9, 45, 108, 32] = [1, 4] ∧
    ∃ s', (∀ fuel, 9 ≤ fuel → parseArgs fuel (cString [32, 108, 115, 9, 45, 108, 32])
        (fun _ => none) 16 = some s') ∧ s'.argc = 2 ∧ s'.argv 1 = some 4 := by
  have hstarts : wordStarts [32, 108, 115, 9, 45, 108, 32] = [1, 4] := by decide +kernel
  obtain ⟨-, s', hs', hargc, -, hargs, -⟩ :=
    parseArgs_words (show 0 ∉ [32, 108, 115, 9, 45, 108, 32] by decide) 16 fun _ => none
  rw [hstarts] at hargc hargs
  have htwo : s'.argc = 2 := hargc
  exact ⟨hstarts, s', hs', htwo, (hargs 1 4 (by omega) rfl).1⟩

/-! ### The line editor -/

/-- `readline` without its echo, on the characters that `SYS_READ` gives it; `none` is a call
without one. A store outside of the buffer fails, and so does input that does not end the line. -/
def readline (maxLen : ℕ) : List (Option UInt8) → List UInt8 → ℕ → Option (List UInt8 × ℕ)
  | [], _, _ => none
  | none :: input, buf, idx => readline maxLen input buf idx
  | some c :: input, buf, idx =>
    if c = 0x0d ∨ c = 0x0a then
      if idx < buf.length then some (buf.set idx 0, idx) else none
    else if c = 0x08 ∨ c = 0x7f then readline maxLen input buf (idx - 1)
    else if 32 ≤ c ∧ c ≤ 126 ∧ idx < maxLen - 1 then
      if idx < buf.length then readline maxLen input (buf.set idx c) (idx + 1) else none
    else readline maxLen input buf idx

/-- What a key makes of a line. -/
def typeKey (maxLen : ℕ) (text : List UInt8) : Option UInt8 → List UInt8
  | none => text
  | some c =>
    if c = 0x08 ∨ c = 0x7f then text.dropLast
    else if 32 ≤ c ∧ c ≤ 126 ∧ text.length < maxLen - 1 then text ++ [c] else text

theorem take_set_succ {buf : List UInt8} (hline : buf.take text.length = text)
    (hlt : text.length < buf.length) (c : UInt8) :
    (buf.set text.length c).take (text.length + 1) = text ++ [c] := by
  rw [take_succ_eq_append_getElem (by rwa [length_set]), getElem_set_self,
    take_set_of_le le_rfl, hline]

/-- **`readline` reads the line that is typed** and stays inside of the buffer, whatever is typed.
The line is a string of printable characters, one that `parse_args` can take. -/
theorem readline_line {maxLen : ℕ} {buf : List UInt8} (hbuf : buf.length = maxLen)
    (hline : buf.take text.length = text) (hlt : text.length < maxLen)
    (hprint : ∀ c ∈ text, 32 ≤ c ∧ c ≤ 126) {input : List (Option UInt8)}
    (hinput : ∀ c, some c ∈ input → ¬(c = 0x0d ∨ c = 0x0a)) {enter : UInt8}
    (henter : enter = 0x0d ∨ enter = 0x0a) (rest : List (Option UInt8)) :
    ∃ buf' line, line = input.foldl (typeKey maxLen) text ∧
      readline maxLen (input ++ some enter :: rest) buf text.length = some (buf', line.length) ∧
      buf'.take (line.length + 1) = line ++ [0] ∧ line.length < maxLen ∧
      ∀ c ∈ line, 32 ≤ c ∧ c ≤ 126 := by
  induction input generalizing buf text with
  | nil =>
    refine ⟨buf.set text.length 0, text, rfl, ?_, take_set_succ hline (hbuf ▸ hlt) 0, hlt, hprint⟩
    rw [nil_append, readline, if_pos henter, if_pos (hbuf ▸ hlt)]
  | cons key input ih =>
    have hrest c hc := hinput c (mem_cons_of_mem key hc)
    cases key with
    | none => exact ih hbuf hline hlt hprint hrest
    | some c =>
      rw [foldl_cons, cons_append, readline, if_neg (hinput c mem_cons_self), typeKey]
      split_ifs with hdel hput hroom
      · have hshort : buf.take (text.length - 1) = text.dropLast := by
          have htake := congrArg (take (text.length - 1)) hline
          rwa [take_take, Nat.min_eq_left (Nat.sub_le _ _), ← dropLast_eq_take] at htake
        have hstep := @ih text.dropLast buf hbuf (by rwa [length_dropLast])
          ((dropLast_sublist text).length_le.trans_lt hlt)
          (fun c hc => hprint c (dropLast_subset _ hc)) hrest
        rwa [length_dropLast] at hstep
      · have hlen : (text ++ [c]).length = text.length + 1 := length_append
        have hstep := @ih (text ++ [c]) (buf.set text.length c) (length_set.trans hbuf)
          (by rw [hlen, take_set_succ hline (hbuf ▸ hlt)]) (by omega) (fun d hd => ?_) hrest
        · rwa [hlen] at hstep
        · obtain hd | hd := mem_append.mp hd
          · exact hprint d hd
          · exact mem_singleton.mp hd ▸ ⟨hput.1, hput.2.1⟩
      · exact absurd (hbuf ▸ hlt) hroom
      · exact ih hbuf hline hlt hprint hrest

/-- `l`, a wrong key, backspace, `s` and Enter. -/
theorem readline_line_ls : ∃ buf', readline 4 [some 108, none, some 120, some 8, some 115, some 10]
    [1, 2, 3, 4] 0 = some (buf', 2) ∧ buf'.take 3 = [108, 115, 0] := by
  have hinput : ∀ c : UInt8, some c ∈ [some 108, none, some 120, some 8, some 115] →
      ¬(c = 0x0d ∨ c = 0x0a) := by simp
  obtain ⟨buf', _, rfl, hrun, hbuf, -⟩ :=
    @readline_line [] 4 [1, 2, 3, 4] rfl rfl (by decide) (by simp) _ hinput 10 (.inr rfl) []
  exact ⟨buf', hrun, hbuf⟩

end KernelR.User
