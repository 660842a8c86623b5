import SymBisect.HelperFunctions.CallStack

/-!
# Looking up an address

`get_dump_line` and `get_lineinfo` of `helper_functions/prioritylist.py`: a binary search in the listing of the
instructions, and one in the debug information.  A search that is not over yet when the fuel is spent, and an exception,
are `none`.

* `get_dump_line_step`: the search goes on in a smaller interval between two records.
* `finds_present`, `finds_between`, `finds_below`, `finds_above`: what is found for an address.
* `search_exact`: what both searches do.
-/

namespace SymBisect.DumpSearch

open Lib PriorityList

attribute [local instance] Text.lawfulBEq

/-! ### The listing of the instructions -/

/-- `'ff' in line`. -/
def isRecord (line : Text) : Bool := decide ("ff".toList <:+: line)

/-- `line[:16]`. -/
def address (line : Text) : Text := line.take 16

/-- `get_dump_line`. -/
def get_dump_line (s_buf : List Text) (addr : Text) : (fuel st ed : ℕ) → Option (Option ℕ)
  | 0, _, _ => none
  | fuel + 1, st, ed =>
    s_buf[st]?.bind fun stline =>
      if !isRecord stline then get_dump_line s_buf addr fuel (st + 1) ed
      else
        s_buf[ed]?.bind fun edline =>
          if !isRecord edline then get_dump_line s_buf addr fuel st (ed - 1)
          else if address stline = addr then some (some st)
          else if address edline = addr then some (some ed)
          else if ed = st + 1 then
            if address stline < addr ∧ addr < address edline then some (some ed) else some none
          else
            let mid := (st + ed) / 2
            s_buf[mid]?.bind fun midline =>
              let mid := if isRecord midline then mid else mid + 1
              s_buf[mid]?.bind fun midline =>
                if address midline < addr then get_dump_line s_buf addr fuel mid ed
                else get_dump_line s_buf addr fuel st mid

/-- A line of the listing has an instruction at the address. -/
def At (s_buf : List Text) (i : ℕ) (a : Text) : Prop :=
  ∃ line, s_buf[i]? = some line ∧ isRecord line = true ∧ address line = a

/-- A listing: the addresses do not decrease, and between two of them there is at most one line without an address. -/
structure Dump (s_buf : List Text) : Prop where
  sorted : ∀ i j a b, i ≤ j → At s_buf i a → At s_buf j b → a ≤ b
  apart : ∀ i j a b, At s_buf i a → At s_buf j b → ∀ k, i < k → k + 1 < j → (∃ c, At s_buf k c) ∨ ∃ c, At s_buf (k + 1) c

/-- The search ends with the result. -/
def Finds (s_buf : List Text) (addr : Text) (st ed : ℕ) (r : Option ℕ) : Prop :=
  ∃ fuel, get_dump_line s_buf addr fuel st ed = some r

variable {s_buf : List Text} {addr a b c : Text} {st ed i j k : ℕ} {r : Option ℕ}

theorem At.unique (h : At s_buf i a) (h' : At s_buf i b) : a = b := by
  obtain ⟨line, hline, -, rfl⟩ := h
  obtain ⟨line', hline', -, rfl⟩ := h'
  rw [hline] at hline'
  rw [Option.some.inj hline']

theorem At.lt_length (h : At s_buf i a) : i < s_buf.length := by
  obtain ⟨line, hline, -, -⟩ := h
  exact (List.getElem?_eq_some_iff.1 hline).1

/-- Later lines have larger addresses, so a smaller address is on an earlier line. -/
theorem Dump.lt_of_lt (d : Dump s_buf) (hi : At s_buf i a) (hj : At s_buf j b) (h : a < b) : i < j := by
  by_contra hji
  exact absurd (d.sorted j i b a (Nat.le_of_not_lt hji) hj hi) (not_le.2 h)

/-- What the search does at two records that are not at the address, with lines between them. -/
theorem get_dump_line_eq (addr : Text) {stline edline midline : Text} (hst : s_buf[st]? = some stline) (hed : s_buf[ed]? = some edline)
    (hst' : isRecord stline = true) (hed' : isRecord edline = true) (ha : address stline ≠ addr)
    (hb : address edline ≠ addr) (hlt : ed ≠ st + 1) (hmid : s_buf[(st + ed) / 2]? = some midline) (fuel : ℕ) :
    get_dump_line s_buf addr (fuel + 1) st ed =
      s_buf[if isRecord midline then (st + ed) / 2 else (st + ed) / 2 + 1]?.bind fun line =>
        if address line < addr then
          get_dump_line s_buf addr fuel (if isRecord midline then (st + ed) / 2 else (st + ed) / 2 + 1) ed
        else get_dump_line s_buf addr fuel st (if isRecord midline then (st + ed) / 2 else (st + ed) / 2 + 1) := by
  rw [get_dump_line, hst, hed, Option.bind_some, Option.bind_some, hst', hed', if_neg (by decide), if_neg (by decide),
    if_neg ha, if_neg hb, if_neg hlt]
  show s_buf[(st + ed) / 2]?.bind _ = _
  rw [hmid, Option.bind_some]

/-- **One step.**  Between two records that are not at the address the search goes on at a record; it may be the upper end
only if there is nothing but one other line between them. -/
theorem get_dump_line_step (d : Dump s_buf) (hst : At s_buf st a) (hed : At s_buf ed b) (hlt : st + 1 < ed)
    (ha : a ≠ addr) (hb : b ≠ addr) : ∃ mid c, At s_buf mid c ∧ st < mid ∧ mid ≤ ed ∧
      (mid = ed → ed = st + 2 ∧ ¬∃ c, At s_buf (st + 1) c) ∧
      ∀ fuel, get_dump_line s_buf addr (fuel + 1) st ed =
        if c < addr then get_dump_line s_buf addr fuel mid ed else get_dump_line s_buf addr fuel st mid := by
  have hlen : ed < s_buf.length := hed.lt_length
  obtain ⟨stline, hstline, hst', rfl⟩ := id hst
  obtain ⟨edline, hedline, hed', rfl⟩ := id hed
  have hmidline : s_buf[(st + ed) / 2]? = some s_buf[(st + ed) / 2] := List.getElem?_eq_getElem (by omega)
  have heq := get_dump_line_eq addr hstline hedline hst' hed' ha hb (by omega) hmidline
  cases hrecord : isRecord s_buf[(st + ed) / 2] with
  | true =>
    simp only [hrecord, if_true, hmidline, Option.bind_some] at heq
    exact ⟨_, _, ⟨_, hmidline, hrecord, rfl⟩, by omega, by omega, fun h => by omega, heq⟩
  | false =>
    have hno : ¬∃ c, At s_buf ((st + ed) / 2) c := by
      rintro ⟨c, line, hline, hrecord', -⟩
      rw [hmidline] at hline
      rw [← Option.some.inj hline, hrecord] at hrecord'
      cases hrecord'
    obtain ⟨c, line, hline, hrecord', rfl⟩ : ∃ c, At s_buf ((st + ed) / 2 + 1) c := by
      by_cases hend : (st + ed) / 2 + 1 = ed
      · rw [hend]
        exact ⟨_, hed⟩
      · exact (d.apart st ed _ _ hst hed _ (by omega) (by omega)).resolve_left hno
    simp only [hrecord, Bool.false_eq_true, if_false, hline, Option.bind_some] at heq
    refine ⟨_, _, ⟨_, hline, hrecord', rfl⟩, by omega, by omega, fun h => ⟨by omega, ?_⟩, heq⟩
    have hmid : (st + ed) / 2 = st + 1 := by omega
    rwa [hmid] at hno

/-- The search ends at once at a record of the address. -/
theorem finds_st (hst : At s_buf st addr) (hed : At s_buf ed b) : Finds s_buf addr st ed (some st) := by
  obtain ⟨stline, hstline, hst', rfl⟩ := hst
  obtain ⟨edline, hedline, hed', -⟩ := hed
  refine ⟨1, ?_⟩
  rw [get_dump_line, hstline, hedline, Option.bind_some, Option.bind_some, hst', hed', if_neg (by decide),
    if_neg (by decide), if_pos rfl]

theorem finds_ed (hst : At s_buf st a) (hed : At s_buf ed addr) (ha : a ≠ addr) : Finds s_buf addr st ed (some ed) := by
  obtain ⟨stline, hstline, hst', rfl⟩ := hst
  obtain ⟨edline, hedline, hed', rfl⟩ := hed
  refine ⟨1, ?_⟩
  rw [get_dump_line, hstline, hedline, Option.bind_some, Option.bind_some, hst', hed', if_neg (by decide),
    if_neg (by decide), if_neg ha, if_pos rfl]

/-- The search ends between two adjacent records. -/
theorem finds_adjacent (hst : At s_buf st a) (hed : At s_buf (st + 1) b) (ha : a ≠ addr) (hb : b ≠ addr) :
    Finds s_buf addr st (st + 1) (if a < addr ∧ addr < b then some (st + 1) else none) := by
  obtain ⟨stline, hstline, hst', rfl⟩ := hst
  obtain ⟨edline, hedline, hed', rfl⟩ := hed
  refine ⟨1, ?_⟩
  rw [get_dump_line, hstline, hedline, Option.bind_some, Option.bind_some, hst', hed', if_neg (by decide),
    if_neg (by decide), if_neg ha, if_neg hb, if_pos rfl]
  split
  · rfl
  · rfl

/-- The step, for the result. -/
theorem finds_step (d : Dump s_buf) (hst : At s_buf st a) (hed : At s_buf ed b) (hlt : st + 1 < ed)
    (ha : a ≠ addr) (hb : b ≠ addr) : ∃ mid c, At s_buf mid c ∧ st < mid ∧ mid ≤ ed ∧
      (mid = ed → ed = st + 2 ∧ ¬∃ c, At s_buf (st + 1) c) ∧
      (c < addr → ∀ r, Finds s_buf addr mid ed r → Finds s_buf addr st ed r) ∧
      (¬c < addr → ∀ r, Finds s_buf addr st mid r → Finds s_buf addr st ed r) := by
  obtain ⟨mid, c, hmid, hst', hed', hend, heq⟩ := get_dump_line_step d hst hed hlt ha hb
  refine ⟨mid, c, hmid, hst', hed', hend, fun hc r hr => ?_, fun hc r hr => ?_⟩
  · obtain ⟨fuel, hfuel⟩ := hr
    exact ⟨fuel + 1, by rw [heq, if_pos hc, hfuel]⟩
  · obtain ⟨fuel, hfuel⟩ := hr
    exact ⟨fuel + 1, by rw [heq, if_neg hc, hfuel]⟩

/-- An address of the listing is found. -/
theorem finds_present (d : Dump s_buf) (n : ℕ) : ∀ st ed a b k, ed - st ≤ n → At s_buf st a → At s_buf ed b → st ≤ k →
    k ≤ ed → At s_buf k addr → ∃ i, At s_buf i addr ∧ Finds s_buf addr st ed (some i) := by
  induction n with
  | zero =>
    intro st ed a b k hn hst hed hk hk' hat
    obtain rfl : k = st := by omega
    exact ⟨k, hat, finds_st hat hed⟩
  | succ n ih =>
    intro st ed a b k hn hst hed hk hk' hat
    by_cases ha : a = addr
    · rw [ha] at hst
      exact ⟨st, hst, finds_st hst hed⟩
    · by_cases hb : b = addr
      · rw [hb] at hed
        exact ⟨ed, hed, finds_ed hst hed ha⟩
      · have hkst : k ≠ st := fun h => ha (hst.unique (h ▸ hat))
        have hked : k ≠ ed := fun h => hb (hed.unique (h ▸ hat))
        obtain ⟨mid, c, hmid, hlt, hle, hend, hup, hdown⟩ := finds_step d hst hed (by omega) ha hb
        have hmid_ne : mid ≠ ed := by
          intro h
          obtain ⟨hed2, hno⟩ := hend h
          have hkmid : k = st + 1 := by omega
          exact hno ⟨addr, hkmid ▸ hat⟩
        by_cases hc : c < addr
        · have hmidk : mid < k := d.lt_of_lt hmid hat hc
          obtain ⟨i, hi, hfinds⟩ := ih mid ed c b k (by omega) hmid hed hmidk.le hk' hat
          exact ⟨i, hi, hup hc _ hfinds⟩
        · by_cases hkmid : k ≤ mid
          · obtain ⟨i, hi, hfinds⟩ := ih st mid a c k (by omega) hst hmid hk hkmid hat
            exact ⟨i, hi, hdown hc _ hfinds⟩
          · have hceq : c = addr := le_antisymm (d.sorted mid k c addr (by omega) hmid hat) (not_lt.1 hc)
            rw [hceq] at hmid
            obtain ⟨i, hi, hfinds⟩ := ih st mid a addr mid (by omega) hst hmid hlt.le le_rfl hmid
            exact ⟨i, hi, hdown hc _ hfinds⟩

/-- An address between two adjacent records is taken for that of the second one. -/
theorem finds_between (d : Dump s_buf) (n : ℕ) : ∀ st ed a b k x y, ed - st ≤ n → At s_buf st a → At s_buf ed b → st ≤ k →
    k + 1 ≤ ed → At s_buf k x → At s_buf (k + 1) y → x < addr → addr < y → Finds s_buf addr st ed (some (k + 1)) := by
  induction n with
  | zero => intro st ed a b k x y hn hst hed hk hk'; omega
  | succ n ih =>
    intro st ed a b k x y hn hst hed hk hk' hx hy hxa hay
    have ha : a < addr := (d.sorted st k a x hk hst hx).trans_lt hxa
    have hb : addr < b := hay.trans_le (d.sorted (k + 1) ed y b hk' hy hed)
    by_cases hadj : ed = st + 1
    · obtain rfl : k = st := by omega
      subst hadj
      have hfinds := finds_adjacent hst hed ha.ne hb.ne'
      rwa [if_pos ⟨ha, hb⟩] at hfinds
    · obtain ⟨mid, c, hmid, hlt, hle, hend, hup, hdown⟩ := finds_step d hst hed (by omega) ha.ne hb.ne'
      have hmid_ne : mid ≠ ed := by
        intro h
        obtain ⟨hed2, hno⟩ := hend h
        obtain hkst | hkst : k = st ∨ k = st + 1 := by omega
        · exact hno ⟨y, hkst ▸ hy⟩
        · exact hno ⟨x, hkst ▸ hx⟩
      by_cases hc : c < addr
      · have hmidk : mid < k + 1 := d.lt_of_lt hmid hy (hc.trans hay)
        exact hup hc _ (ih mid ed c b k x y (by omega) hmid hed (by omega) hk' hx hy hxa hay)
      · have hkmid : k < mid := d.lt_of_lt hx hmid (hxa.trans_le (not_lt.1 hc))
        exact hdown hc _ (ih st mid a c k x y (by omega) hst hmid hk hkmid hx hy hxa hay)

/-- An address below the first record is not found, if another record follows at once. -/
theorem finds_below (d : Dump s_buf) (n : ℕ) : ∀ ed b, ed - st ≤ n → st < ed → At s_buf st a → At s_buf ed b → addr < a →
    At s_buf (st + 1) c → Finds s_buf addr st ed none := by
  induction n with
  | zero => intro ed b hn hlt; omega
  | succ n ih =>
    intro ed b hn hlt hst hed hlow hnext
    have hb : addr < b := hlow.trans_le (d.sorted st ed a b hlt.le hst hed)
    by_cases hadj : ed = st + 1
    · subst hadj
      have hfinds := finds_adjacent hst hed hlow.ne' hb.ne'
      rwa [if_neg fun h => absurd h.1 (not_lt.2 hlow.le)] at hfinds
    · obtain ⟨mid, x, hmid, hlt', hle, hend, -, hdown⟩ := finds_step d hst hed (by omega) hlow.ne' hb.ne'
      have hmid_ne : mid ≠ ed := fun h => (hend h).2 ⟨c, hnext⟩
      have hx : ¬x < addr := not_lt.2 (hlow.le.trans (d.sorted st mid a x hlt'.le hst hmid))
      exact hdown hx _ (ih mid x (by omega) hlt' hst hmid hlow hnext)

/-- An address above the last record is not found, if another record comes just before. -/
theorem finds_above (d : Dump s_buf) (n : ℕ) : ∀ st a, ed - st ≤ n → st < ed → At s_buf st a → At s_buf ed b → b < addr →
    At s_buf (ed - 1) c → Finds s_buf addr st ed none := by
  induction n with
  | zero => intro st a hn hlt; omega
  | succ n ih =>
    intro st a hn hlt hst hed hhigh hprev
    have ha : a < addr := (d.sorted st ed a b hlt.le hst hed).trans_lt hhigh
    by_cases hadj : ed = st + 1
    · subst hadj
      have hfinds := finds_adjacent hst hed ha.ne hhigh.ne
      rwa [if_neg fun h => absurd h.2 (not_lt.2 hhigh.le)] at hfinds
    · obtain ⟨mid, x, hmid, hlt', hle, hend, hup, -⟩ := finds_step d hst hed (by omega) ha.ne hhigh.ne
      have hmid_ne : mid ≠ ed := by
        intro h
        obtain ⟨hed2, hno⟩ := hend h
        have hed1 : ed - 1 = st + 1 := by omega
        exact hno ⟨c, hed1 ▸ hprev⟩
      have hx : x < addr := (d.sorted mid ed x b hle hmid hed).trans_lt hhigh
      exact hup hx _ (ih mid x (by omega) (by omega) hmid hed hhigh hprev)

/-! ### The ends of the file -/

/-- The lines that are passed over at the beginning. -/
theorem finds_trim_st (n : ℕ) (hnot : ∀ k, st ≤ k → k < st + n → ¬∃ c, At s_buf k c) (hlen : st + n < s_buf.length)
    (h : Finds s_buf addr (st + n) ed r) : Finds s_buf addr st ed r := by
  induction n generalizing st with
  | zero => exact h
  | succ n ih =>
    have hnext : Finds s_buf addr (st + 1) ed r := by
      refine ih (fun k hk hk' => hnot k (by omega) (by omega)) (by omega) ?_
      rwa [show st + 1 + n = st + (n + 1) by omega]
    obtain ⟨fuel, hfuel⟩ := hnext
    have hline : s_buf[st]? = some s_buf[st] := List.getElem?_eq_getElem (by omega)
    have hrecord : isRecord s_buf[st] = false := by
      by_contra hr
      exact hnot st le_rfl (by omega) ⟨_, _, hline, Bool.eq_true_of_not_eq_false hr, rfl⟩
    refine ⟨fuel + 1, ?_⟩
    rw [get_dump_line, hline, Option.bind_some, hrecord]
    exact hfuel

/-- The lines that are passed over at the end. -/
theorem finds_trim_ed (hst : At s_buf st a) (n : ℕ) (hnot : ∀ k, ed < k → k ≤ ed + n → ¬∃ c, At s_buf k c)
    (hlen : ed + n < s_buf.length) (h : Finds s_buf addr st ed r) : Finds s_buf addr st (ed + n) r := by
  induction n with
  | zero => exact h
  | succ n ih =>
    obtain ⟨fuel, hfuel⟩ := ih (fun k hk hk' => hnot k hk (by omega)) (by omega)
    obtain ⟨stline, hstline, hst', -⟩ := hst
    have hline : s_buf[ed + (n + 1)]? = some s_buf[ed + (n + 1)] := List.getElem?_eq_getElem hlen
    have hrecord : isRecord s_buf[ed + (n + 1)] = false := by
      by_contra hr
      exact hnot _ (by omega) le_rfl ⟨_, _, hline, Bool.eq_true_of_not_eq_false hr, rfl⟩
    refine ⟨fuel + 1, ?_⟩
    rw [get_dump_line, hstline, Option.bind_some, hst', hline, Option.bind_some, hrecord]
    exact hfuel

/-- The first and the last record of a listing. -/
structure Ends (s_buf : List Text) (first last : ℕ) (low high : Text) : Prop where
  low : At s_buf first low
  high : At s_buf last high
  first_le : ∀ k c, At s_buf k c → first ≤ k
  le_last : ∀ k c, At s_buf k c → k ≤ last

/-- The search in the whole file is one between the ends. -/
theorem finds_whole {first last : ℕ} (e : Ends s_buf first last a b) (h : Finds s_buf addr first last r) :
    Finds s_buf addr 0 (s_buf.length - 1) r := by
  have hlast : last < s_buf.length := e.high.lt_length
  have hed : Finds s_buf addr first (s_buf.length - 1) r := by
    have htrim := finds_trim_ed e.low (s_buf.length - 1 - last)
      (fun k hk _ hat => absurd (e.le_last k _ hat.choose_spec) (not_le.2 hk)) (by omega) h
    rwa [show last + (s_buf.length - 1 - last) = s_buf.length - 1 by omega] at htrim
  have hfirst : first < s_buf.length := e.low.lt_length
  refine finds_trim_st first (fun k _ hk hat => ?_) (by omega) ?_
  · have hle : first ≤ k := e.first_le k _ hat.choose_spec
    omega
  · rwa [Nat.zero_add]

theorem exists_ends (h : At s_buf k c) : ∃ first last low high, Ends s_buf first last low high := by
  classical
  have hex : ∃ k, ∃ c, At s_buf k c := ⟨k, c, h⟩
  obtain ⟨low, hlow⟩ := Nat.find_spec hex
  obtain ⟨high, hhigh⟩ := Nat.findGreatest_spec (P := fun k => ∃ c, At s_buf k c) h.lt_length.le ⟨c, h⟩
  exact ⟨_, _, low, high, hlow, hhigh, fun k c hk => Nat.find_min' hex ⟨c, hk⟩,
    fun k c hk => Nat.le_findGreatest hk.lt_length.le ⟨c, hk⟩⟩

/-! ### The debug information -/

/-- `int` of hexadecimal digits, in groups with an underscore between them. -/
def hexDigits (t : Text) : Option ℕ :=
  let groups := t.splitOn '_'
  let value (c : Char) : ℕ := if c.isDigit then c.toNat - '0'.toNat else c.toLower.toNat - 'a'.toNat + 10
  if groups.all fun g => !g.isEmpty && g.all fun c => c.isDigit || ('a' ≤ c.toLower && c.toLower ≤ 'f') then
    some (groups.flatten.foldl (fun n c => 16 * n + value c) 0)
  else none

/-- Hexadecimal digits after an optional prefix. -/
def hexNumber : Text → Option ℕ
  | '0' :: 'x' :: '_' :: d => hexDigits d
  | '0' :: 'X' :: '_' :: d => hexDigits d
  | '0' :: 'x' :: d => hexDigits d
  | '0' :: 'X' :: d => hexDigits d
  | d => hexDigits d

/-- `int(t, 16)`. -/
def hex (t : Text) : Option ℤ :=
  match ((t.dropWhile Char.isWhitespace).reverse.dropWhile Char.isWhitespace).reverse with
  | '-' :: d => (hexNumber d).map fun n => -(n : ℤ)
  | '+' :: d => (hexNumber d).map fun n => (n : ℤ)
  | d => (hexNumber d).map fun n => (n : ℤ)

/-- `"(inlined by)" in line`. -/
def isInlined (line : Text) : Bool := decide ("(inlined by)".toList <:+: line)

/-- A function and a source line. -/
abbrev Frame := Text × Text

/-- What is read of the first line of a record. -/
def headFrame (line : Text) : Option Frame := do
  let funcname ← (line.splitOn ' ')[1]?
  let sourceinfo ← (line.dropLast.splitOn ' ')[3]?
  pure (funcname, sourceinfo)

/-- What is read of a line of an inlined function. -/
def inlinedFrame (line : Text) : Option Frame := do
  let rest ← (splitText "inlined by) ".toList [] 0 line.dropLast)[1]?
  let sourceinfo ← (line.dropLast.splitOn ' ')[5]?
  pure (rest.takeWhile fun c => c ≠ ' ', sourceinfo)

/-- The loop of `get_singleinfo`; there has to be a line after the record. -/
def inlinedLoop : List Text → Option (List Frame)
  | [] => none
  | line :: s_buf =>
    if isInlined line then (inlinedFrame line).bind fun frame => (inlinedLoop s_buf).map fun frames => frame :: frames
    else some []

/-- `get_singleinfo`. -/
def get_singleinfo (s_buf : List Text) (mid : ℕ) : Option (List Frame) :=
  s_buf[mid]?.bind fun line => (headFrame line).bind fun frame =>
    (inlinedLoop (s_buf.drop (mid + 1))).map fun frames => frame :: frames

/-- `while "(inlined by)" in s_buf[st]: st -= 1`.  A file does not begin with such a line. -/
def back (s_buf : List Text) : ℕ → Option ℕ
  | 0 => s_buf[0]?.bind fun line => if isInlined line then none else some 0
  | st + 1 => s_buf[st + 1]?.bind fun line => if isInlined line then back s_buf st else some (st + 1)

/-- `int(line.split(":")[0], 16)`. -/
def numberAt (s_buf : List Text) (i : ℕ) : Option ℤ := s_buf[i]?.bind fun line => hex (line.takeWhile fun c => c ≠ ':')

/-- The loop over the lines when only one record is left before the upper end. -/
def scanLoop (s_buf : List Text) (number : ℤ) : List ℕ → Option (List Frame)
  | [] => some []
  | lineindex :: indices =>
    s_buf[lineindex]?.bind fun line =>
      if isInlined line then scanLoop s_buf number indices
      else (numberAt s_buf lineindex).bind fun midnumber =>
        if midnumber = number then get_singleinfo s_buf lineindex else scanLoop s_buf number indices

/-- `get_lineinfo`. -/
def get_lineinfo (s_buf : List Text) (number : ℤ) : (fuel st ed : ℕ) → Option (List Frame)
  | 0, _, _ => none
  | fuel + 1, st, ed =>
    (back s_buf st).bind fun st => (back s_buf ed).bind fun ed => (back s_buf ((st + ed) / 2)).bind fun mid =>
      (numberAt s_buf mid).bind fun midnumber =>
        if st = mid then scanLoop s_buf number (List.range' st (ed + 1 - st))
        else if midnumber = number then get_singleinfo s_buf mid
        else if midnumber < number then get_lineinfo s_buf number fuel mid ed
        else get_lineinfo s_buf number fuel st mid

/-- A record of the debug information: its lines and what is read of them. -/
structure Record where
  number : ℤ
  head : Text
  inlined : List Text
  frames : List Frame
  head_not : isInlined head = false
  head_number : hex (head.takeWhile fun c => c ≠ ':') = some number
  inlined_all : ∀ line ∈ inlined, isInlined line = true
  frames_eq : (headFrame head).bind (fun frame => (inlined.mapM inlinedFrame).map fun frames => frame :: frames) =
    some frames

/-- The lines of a record. -/
def Record.lines (r : Record) : List Text := r.head :: r.inlined

/-- The lines of the file. -/
def listing (records : List Record) : List Text := records.flatMap Record.lines

/-- Where a record begins. -/
def start (records : List Record) (k : ℕ) : ℕ := (listing (records.take k)).length

variable {records : List Record} {number : ℤ} {m : ℕ}

theorem start_succ (hk : k < records.length) : start records (k + 1) = start records k + 1 + records[k].inlined.length := by
  unfold start
  rw [List.take_succ_eq_append_getElem hk]
  unfold listing
  rw [List.flatMap_append, List.length_append, List.flatMap_singleton, Record.lines, List.length_cons]
  omega

theorem start_length : start records records.length = (listing records).length := by
  unfold start
  rw [List.take_length]

/-- The lines from a record on. -/
theorem drop_start (hk : k < records.length) : (listing records).drop (start records k) =
    records[k].head :: (records[k].inlined ++ listing (records.drop (k + 1))) := by
  have hsplit : listing records = listing (records.take k) ++ listing (records.drop k) := by
    unfold listing
    rw [← List.flatMap_append, List.take_append_drop]
  rw [hsplit]
  unfold start
  rw [List.drop_left, List.drop_eq_getElem_cons hk]
  rfl

theorem line_head (hk : k < records.length) : (listing records)[start records k]? = some records[k].head := by
  have h := congrArg (fun l : List Text => l[0]?) (drop_start hk)
  simpa only [List.getElem?_drop, Nat.add_zero, List.getElem?_cons_zero] using h

theorem line_inlined (hk : k < records.length) (hj : j < records[k].inlined.length) :
    (listing records)[start records k + (j + 1)]? = some records[k].inlined[j] := by
  have h := congrArg (fun l : List Text => l[j + 1]?) (drop_start hk)
  simp only [List.getElem?_drop, List.getElem?_cons_succ] at h
  rw [h, List.getElem?_append_left hj, List.getElem?_eq_getElem hj]

theorem back_start (hk : k < records.length) : back (listing records) (start records k) = some (start records k) := by
  have hline := line_head hk
  have hnot : isInlined records[k].head = false := records[k].head_not
  generalize start records k = i at hline
  cases i with
  | zero =>
    rw [back, hline, Option.bind_some, hnot]
    rfl
  | succ i =>
    rw [back, hline, Option.bind_some, hnot]
    rfl

/-- The way back from a line leads to the beginning of its record. -/
theorem back_eq (hk : k < records.length) (hj : j ≤ records[k].inlined.length) :
    back (listing records) (start records k + j) = some (start records k) := by
  induction j with
  | zero => exact back_start hk
  | succ j ih =>
    have hline := line_inlined hk hj
    rw [← Nat.add_assoc] at hline ⊢
    rw [back, hline, Option.bind_some, records[k].inlined_all _ (List.getElem_mem hj)]
    exact ih (Nat.le_of_succ_le hj)

/-- Every line belongs to a record. -/
theorem exists_start (hm : m ≤ records.length) (hi : i < start records m) :
    ∃ k, ∃ hk : k < records.length, k < m ∧ ∃ j, j ≤ records[k].inlined.length ∧ i = start records k + j := by
  induction m with
  | zero => exact absurd hi (Nat.not_lt_zero i)
  | succ m ih =>
    rw [start_succ hm] at hi
    by_cases hlt : i < start records m
    · obtain ⟨k, hk, hkm, hj⟩ := ih (Nat.le_of_succ_le hm) hlt
      exact ⟨k, hk, hkm.trans (Nat.lt_succ_self m), hj⟩
    · exact ⟨m, hm, Nat.lt_succ_self m, i - start records m, by omega, by omega⟩

theorem start_le (h : k ≤ m) (hm : m ≤ records.length) : start records k ≤ start records m := by
  induction m, h using Nat.le_induction with
  | base => exact le_rfl
  | succ m hkm ih =>
    rw [start_succ hm]
    have hle := ih (Nat.le_of_succ_le hm)
    omega

theorem start_lt (h : k < m) (hm : m ≤ records.length) : start records k < start records m := by
  have hle : start records (k + 1) ≤ start records m := start_le h hm
  rw [start_succ (h.trans_le hm)] at hle
  omega

/-- A record that is not the last one is read completely. -/
theorem get_singleinfo_eq (hk : k + 1 < records.length) :
    get_singleinfo (listing records) (start records k) = some records[k].frames := by
  have hk' : k < records.length := Nat.lt_of_succ_lt hk
  have hdrop : (listing records).drop (start records k + 1) =
      records[k].inlined ++ records[k + 1].head :: (records[k + 1].inlined ++ listing (records.drop (k + 1 + 1))) := by
    rw [← List.drop_drop, drop_start hk', List.drop_succ_cons, List.drop_zero, List.drop_eq_getElem_cons hk]
    rfl
  have hloop : ∀ inlined : List Text, (∀ line ∈ inlined, isInlined line = true) → ∀ rest,
      inlinedLoop (inlined ++ records[k + 1].head :: rest) = inlined.mapM inlinedFrame := by
    intro inlined hall rest
    induction inlined with
    | nil =>
      rw [List.nil_append, inlinedLoop, records[k + 1].head_not]
      rfl
    | cons line inlined ih =>
      rw [List.cons_append, inlinedLoop, hall line List.mem_cons_self, if_pos rfl,
        ih fun l hl => hall l (List.mem_cons_of_mem _ hl), List.mapM_cons]
      cases inlinedFrame line with
      | none => rfl
      | some frame =>
        cases inlined.mapM inlinedFrame with
        | none => rfl
        | some frames => rfl
  unfold get_singleinfo
  rw [line_head hk', Option.bind_some, hdrop, hloop _ records[k].inlined_all]
  exact records[k].frames_eq

theorem numberAt_start (hk : k < records.length) :
    numberAt (listing records) (start records k) = some records[k].number := by
  unfold numberAt
  rw [line_head hk, Option.bind_some]
  exact records[k].head_number

/-- The records are sorted by address. -/
def Sorted (records : List Record) : Prop := records.Pairwise fun r r' => r.number ≤ r'.number

theorem Sorted.lt_of_lt (h : Sorted records) {k m : ℕ} (hk : k < records.length) (hm : m < records.length)
    (hlt : records[k].number < records[m].number) : k < m := by
  by_contra hmk
  obtain hmk | rfl := Nat.lt_or_eq_of_le (Nat.le_of_not_lt hmk)
  · exact absurd (List.pairwise_iff_getElem.1 h m k hm hk hmk) (not_le.2 hlt)
  · exact lt_irrefl _ hlt

/-- The loop over the lines finds a record of the address. -/
theorem scanLoop_found (hlast : ∀ k (hk : k < records.length), records[k].number = number → k + 1 < records.length)
    (hk : k < records.length) (hnumber : records[k].number = number) (n : ℕ) : ∀ i, i + n ≤ (listing records).length →
    i ≤ start records k → start records k < i + n → ∃ m, ∃ hm : m < records.length, records[m].number = number ∧
      scanLoop (listing records) number (List.range' i n) = some records[m].frames := by
  induction n with
  | zero => intro i _ hle hlt; omega
  | succ n ih =>
    intro i hlen hle hlt
    rw [List.range'_succ]
    have hi : i < start records records.length := by
      rw [start_length]
      omega
    obtain ⟨m, hm, -, j, hj, hi⟩ := exists_start le_rfl hi
    cases j with
    | zero =>
      rw [Nat.add_zero] at hi
      subst hi
      by_cases hfound : records[m].number = number
      · refine ⟨m, hm, hfound, ?_⟩
        rw [scanLoop, line_head hm, Option.bind_some, records[m].head_not, if_neg Bool.false_ne_true, numberAt_start hm,
          Option.bind_some, if_pos hfound]
        exact get_singleinfo_eq (hlast m hm hfound)
      · have hne : start records m ≠ start records k := by
          intro heq
          obtain hlt | rfl | hlt := Nat.lt_trichotomy m k
          · exact absurd heq (start_lt hlt hk.le).ne
          · exact hfound hnumber
          · exact absurd heq.symm (start_lt hlt hm.le).ne
        obtain ⟨x, hx, hxnumber, hscan⟩ := ih (start records m + 1) (by omega) (by omega) (by omega)
        refine ⟨x, hx, hxnumber, ?_⟩
        rw [scanLoop, line_head hm, Option.bind_some, records[m].head_not, if_neg Bool.false_ne_true, numberAt_start hm,
          Option.bind_some, if_neg hfound]
        exact hscan
    | succ j =>
      have hline := line_inlined hm hj
      rw [← hi] at hline
      have hinlined : isInlined records[m].inlined[j] = true := records[m].inlined_all _ (List.getElem_mem hj)
      have hne : i ≠ start records k := by
        intro heq
        rw [heq, line_head hk] at hline
        rw [← Option.some.inj hline, records[k].head_not] at hinlined
        cases hinlined
      obtain ⟨x, hx, hxnumber, hscan⟩ := ih (i + 1) (by omega) (by omega) (by omega)
      refine ⟨x, hx, hxnumber, ?_⟩
      rw [scanLoop, hline, Option.bind_some, hinlined, if_pos rfl]
      exact hscan

/-- The search finds a record of the address. -/
theorem get_lineinfo_found (hsorted : Sorted records)
    (hlast : ∀ k (hk : k < records.length), records[k].number = number → k + 1 < records.length)
    (hk : k < records.length) (hnumber : records[k].number = number) (n : ℕ) : ∀ a b j (hb : b < records.length), b - a < n →
    j ≤ records[b].inlined.length → a ≤ k → k ≤ b → ∃ m, ∃ hm : m < records.length, records[m].number = number ∧
      ∃ fuel, get_lineinfo (listing records) number fuel (start records a) (start records b + j) =
        some records[m].frames := by
  induction n with
  | zero => intro a b j hb hn; omega
  | succ n ih =>
    intro a b j hb hn hj hak hkb
    have ha : a < records.length := by omega
    have hab : start records a ≤ start records b := start_le (hak.trans hkb) hb.le
    obtain ⟨c, hc', hc, j', hj', hmid⟩ := exists_start (i := (start records a + start records b) / 2) (m := b + 1) hb (by
      rw [start_succ hb]
      omega)
    have hstep : ∀ fuel, get_lineinfo (listing records) number (fuel + 1) (start records a) (start records b + j) =
        if start records a = start records c then
          scanLoop (listing records) number (List.range' (start records a) (start records b + 1 - start records a))
        else if records[c].number = number then get_singleinfo (listing records) (start records c)
        else if records[c].number < number then
          get_lineinfo (listing records) number fuel (start records c) (start records b)
        else get_lineinfo (listing records) number fuel (start records a) (start records c) := by
      intro fuel
      rw [get_lineinfo, back_start ha, Option.bind_some, back_eq hb hj, Option.bind_some, hmid, back_eq hc' hj',
        Option.bind_some, numberAt_start hc', Option.bind_some]
    have hac : a ≤ c := by
      by_contra hca
      have hle : start records (c + 1) ≤ start records a := start_le (Nat.lt_of_not_le hca) ha.le
      rw [start_succ hc'] at hle
      omega
    by_cases heq : start records a = start records c
    · have hkb' : start records k ≤ start records b := start_le hkb hb.le
      have hend : start records b < (listing records).length := by
        rw [← start_length]
        exact start_lt hb le_rfl
      obtain ⟨m, hm, hmnumber, hscan⟩ := scanLoop_found hlast hk hnumber (start records b + 1 - start records a)
        (start records a) (by omega) (start_le hak hk.le) (by omega)
      refine ⟨m, hm, hmnumber, 1, ?_⟩
      rw [hstep, if_pos heq, hscan]
    · have hac' : a < c := lt_of_le_of_ne hac fun h => heq (h ▸ rfl)
      have hcb : c < b := by
        refine lt_of_le_of_ne (Nat.le_of_lt_succ hc) fun h => ?_
        subst h
        have hlt : start records a < start records c := start_lt hac' hb.le
        omega
      by_cases hfound : records[c].number = number
      · refine ⟨c, hc', hfound, 1, ?_⟩
        rw [hstep, if_neg heq, if_pos hfound]
        exact get_singleinfo_eq (hlast c hc' hfound)
      · by_cases hless : records[c].number < number
        · have hck : c < k := hsorted.lt_of_lt hc' hk (hnumber ▸ hless)
          obtain ⟨m, hm, hmnumber, fuel, hfuel⟩ := ih c b 0 hb (by omega) (Nat.zero_le _) hck.le hkb
          refine ⟨m, hm, hmnumber, fuel + 1, ?_⟩
          rw [hstep, if_neg heq, if_neg hfound, if_pos hless]
          exact hfuel
        · have hkc : k < c := hsorted.lt_of_lt hk hc' (hnumber ▸ lt_of_le_of_ne (not_lt.1 hless) (Ne.symm hfound))
          obtain ⟨m, hm, hmnumber, fuel, hfuel⟩ := ih a c 0 hc' (by omega) (Nat.zero_le _) hak hkc.le
          refine ⟨m, hm, hmnumber, fuel + 1, ?_⟩
          rw [hstep, if_neg heq, if_neg hfound, if_neg hless]
          exact hfuel

/-- The search in the whole file. -/
theorem get_lineinfo_whole (hsorted : Sorted records) {r : Record} (hr : r ∈ records)
    (hlast : ∀ last, records.getLast? = some last → r.number ≠ last.number) : ∃ r' ∈ records, r'.number = r.number ∧
      ∃ fuel, get_lineinfo (listing records) r.number fuel 0 ((listing records).length - 1) = some r'.frames := by
  obtain ⟨k, hk, rfl⟩ := List.getElem_of_mem hr
  have hpos : 0 < records.length := Nat.zero_lt_of_lt hk
  have hb : records.length - 1 < records.length := Nat.sub_lt hpos Nat.zero_lt_one
  have hnot : ∀ m (hm : m < records.length), records[m].number = records[k].number → m + 1 < records.length := by
    intro m hm hnumber
    by_contra hend
    obtain rfl : m = records.length - 1 := by omega
    exact hlast _ (by rw [List.getLast?_eq_getElem?, List.getElem?_eq_getElem hm]) hnumber.symm
  have hend : (listing records).length - 1 =
      start records (records.length - 1) + records[records.length - 1].inlined.length := by
    have hsucc := start_succ hb
    rw [Nat.sub_add_cancel hpos, start_length] at hsucc
    omega
  obtain ⟨m, hm, hnumber, hfuel⟩ := get_lineinfo_found hsorted hnot hk rfl _ 0 (records.length - 1) _ hb
    (Nat.lt_succ_self _) le_rfl (Nat.zero_le k) (by omega)
  rw [hend]
  exact ⟨_, List.getElem_mem hm, hnumber, hfuel⟩

/-- **The two searches.**  In a listing, an address that is there is found; one between two adjacent records is taken for
that of the second; one below all others, or above them, is not found if the end of the listing has two adjacent records.
In the debug information, the complete record of an address is found, unless it is the address of the last record. -/
theorem search_exact (d : Dump s_buf) (hsorted : Sorted records) :
    (∀ addr k, At s_buf k addr → ∃ i, At s_buf i addr ∧ Finds s_buf addr 0 (s_buf.length - 1) (some i)) ∧
      (∀ addr k x y, At s_buf k x → At s_buf (k + 1) y → x < addr → addr < y →
        Finds s_buf addr 0 (s_buf.length - 1) (some (k + 1))) ∧
      (∀ addr k x y, At s_buf k x → At s_buf (k + 1) y → (∀ i a, At s_buf i a → k ≤ i) → addr < x →
        Finds s_buf addr 0 (s_buf.length - 1) none) ∧
      (∀ addr k x y, At s_buf k x → At s_buf (k + 1) y → (∀ i a, At s_buf i a → i ≤ k + 1) → y < addr →
        Finds s_buf addr 0 (s_buf.length - 1) none) ∧
      ∀ r ∈ records, (∀ last, records.getLast? = some last → r.number ≠ last.number) →
        ∃ r' ∈ records, r'.number = r.number ∧
          ∃ fuel, get_lineinfo (listing records) r.number fuel 0 ((listing records).length - 1) = some r'.frames := by
  refine ⟨fun addr k hk => ?_, fun addr k x y hx hy hxa hay => ?_, fun addr k x y hx hy hfirst hlow => ?_,
    fun addr k x y hx hy hend hhigh => ?_, fun r hr hlast => get_lineinfo_whole hsorted hr hlast⟩
  · obtain ⟨first, last, low, high, e⟩ := exists_ends hk
    obtain ⟨i, hi, hfinds⟩ := finds_present d _ first last low high k le_rfl e.low e.high (e.first_le k _ hk)
      (e.le_last k _ hk) hk
    exact ⟨i, hi, finds_whole e hfinds⟩
  · obtain ⟨first, last, low, high, e⟩ := exists_ends hx
    exact finds_whole e (finds_between d _ first last low high k x y le_rfl e.low e.high (e.first_le k _ hx)
      (e.le_last (k + 1) _ hy) hx hy hxa hay)
  · obtain ⟨first, last, low, high, e⟩ := exists_ends hx
    obtain rfl : first = k := le_antisymm (e.first_le k x hx) (hfirst first low e.low)
    have hlt : first < last := e.le_last (first + 1) y hy
    exact finds_whole e (finds_below d _ last high le_rfl hlt e.low e.high (hx.unique e.low ▸ hlow) hy)
  · obtain ⟨first, last, low, high, e⟩ := exists_ends hx
    obtain rfl : last = k + 1 := le_antisymm (hend last high e.high) (e.le_last (k + 1) y hy)
    have hlt : first < k + 1 := Nat.lt_succ_of_le (e.first_le k x hx)
    exact finds_whole e (finds_above d _ first low le_rfl hlt e.low e.high (hy.unique e.high ▸ hhigh) hx)

/-- Two adjacent instructions. -/
def twoInstructions : List Text := [text "ffffffff81000000:\tpush\n", text "ffffffff81000004:\tret\n"]

theorem at_twoInstructions (i : ℕ) (a : Text) (h : At twoInstructions i a) :
    (i = 0 ∧ a = text "ffffffff81000000") ∨ (i = 1 ∧ a = text "ffffffff81000004") := by
  obtain ⟨line, hline, -, rfl⟩ := h
  cases i with
  | zero =>
    obtain rfl := Option.some.inj hline
    exact .inl ⟨rfl, rfl⟩
  | succ i =>
    cases i with
    | zero =>
      obtain rfl := Option.some.inj hline
      exact .inr ⟨rfl, rfl⟩
    | succ i => cases hline

theorem dump_twoInstructions : Dump twoInstructions where
  sorted i j a b hij ha hb := by
    obtain ⟨rfl, rfl⟩ | ⟨rfl, rfl⟩ := at_twoInstructions i a ha
    · obtain ⟨rfl, rfl⟩ | ⟨rfl, rfl⟩ := at_twoInstructions j b hb
      · decide +kernel
      · decide +kernel
    · obtain ⟨rfl, rfl⟩ | ⟨rfl, rfl⟩ := at_twoInstructions j b hb
      · omega
      · decide +kernel
  apart i j a b ha hb k hik hkj := by
    obtain ⟨rfl, -⟩ | ⟨rfl, -⟩ := at_twoInstructions j b hb
    · omega
    · omega

/-- A record with an inlined function. -/
def inlinedRecord : Record where
  number := 0xffffffff81000000
  head := text "0xffffffff81000000: g at a.c:5\n"
  inlined := [text " (inlined by) f at a.c:1\n"]
  frames := [(text "g", text "a.c:5"), (text "f", text "a.c:1")]
  head_not := by decide +kernel
  head_number := by decide +kernel
  inlined_all := by decide +kernel
  frames_eq := by decide +kernel

def lastRecord : Record where
  number := 0xffffffff81000004
  head := text "0xffffffff81000004: f at a.c:2\n"
  inlined := []
  frames := [(text "f", text "a.c:2")]
  head_not := by decide +kernel
  head_number := by decide +kernel
  inlined_all := by decide +kernel
  frames_eq := by decide +kernel

theorem search_twoInstructions :
    (∃ i, At twoInstructions i (text "ffffffff81000004") ∧
      Finds twoInstructions (text "ffffffff81000004") 0 1 (some i)) ∧
    ∃ r' ∈ [inlinedRecord, lastRecord], r'.number = inlinedRecord.number ∧
      ∃ fuel, get_lineinfo (listing [inlinedRecord, lastRecord]) inlinedRecord.number fuel 0 2 = some r'.frames := by
  have hsorted : Sorted [inlinedRecord, lastRecord] := List.pairwise_pair.2 (by decide +kernel)
  have hsearch := search_exact dump_twoInstructions hsorted
  refine ⟨hsearch.1 _ 1 ⟨_, rfl, by decide +kernel, rfl⟩, ?_⟩
  refine hsearch.2.2.2.2 inlinedRecord List.mem_cons_self ?_
  intro last hlast
  obtain rfl := Option.some.inj hlast
  decide +kernel

/-- The line of the second instruction is found for an address between the two, which is not there. -/
theorem finds_absent : Finds twoInstructions (text "ffffffff81000002") 0 1 (some 1) ∧
    ¬∃ k, At twoInstructions k (text "ffffffff81000002") := by
  refine ⟨⟨1, by decide +kernel⟩, ?_⟩
  rintro ⟨k, hk⟩
  obtain ⟨-, h⟩ | ⟨-, h⟩ := at_twoInstructions k _ hk
  · exact absurd h (by decide +kernel)
  · exact absurd h (by decide +kernel)

end SymBisect.DumpSearch
