import Mathlib.Algebra.GroupWithZero.Nat
import PagedTree.Proofs.Words
import PagedTree.Shell.Command

/-! # How commands are written

A line is a command if it starts with a word for one, after blanks, and goes on as that command wants:
with a key and a value, with a key, with nothing or with anything. The grammar says what such lines
are; reading a line finds the command that the grammar gives it, and an error if it gives it none.
-/
namespace PagedTree.Shell.Command

open PagedTree.Text

/-- The number that decimal digits stand for, each of them counted by its place. -/
def placeValue : List Char → Nat
  | [] => 0
  | d :: ds => (d.toNat - '0'.toNat) * 10 ^ ds.length + placeValue ds

/-- Decimal digits for this key, with or without a plus sign in front of them. -/
def Numeral (key : UInt64) (s : List Char) : Prop :=
  ∃ ds, (s = ds ∨ s = '+' :: ds) ∧ ds ≠ [] ∧ (∀ d ∈ ds, d.isDigit) ∧ placeValue ds = key.toNat

/-- The two differ only in the case of ASCII letters. -/
def Spells (w : List Char) (name : String) : Prop :=
  w.map Char.toLower = name.toList.map Char.toLower

/-- What a command wants behind its word: a key and a value, a key, nothing or anything. The label is
what messages call it. -/
inductive Kind where
  | add
  | keyed (label : String) (make : UInt64 → Command)
  | bare (label : String) (c : Command)
  | leading (c : Command)

/-- The words for commands. -/
inductive Named : String → Kind → Prop where
  | add : Named "add" .add
  | insert : Named "insert" .add
  | get : Named "get" (.keyed "get" .get)
  | del : Named "del" (.keyed "del" .del)
  | delete : Named "delete" (.keyed "del" .del)
  | scan : Named "scan" (.bare "scan" .scan)
  | print : Named "print" (.bare "print" .print)
  | last : Named "last" (.bare "last" .last)
  | tables : Named "tables" (.bare "tables" .tables)
  | help : Named "help" (.leading .help)
  | mark : Named "?" (.leading .help)
  | quit : Named "quit" (.leading .quit)
  | exit : Named "exit" (.leading .quit)
  | q : Named "q" (.leading .quit)

/-- The text behind a command word that makes this command of it. The value is any text with no blank
at its ends, whatever is in it. -/
inductive Follows : Kind → List Char → Command → Prop where
  | add {key : UInt64} {g n g' v e : List Char} : Gap g → Numeral key n → Gap g' → v ≠ [] →
      Tight v → Blank e → Follows .add (g ++ n ++ g' ++ v ++ e) (.add key (String.ofList v))
  | keyed {key : UInt64} {label : String} {make : UInt64 → Command} {g n e : List Char} : Gap g →
      Numeral key n → Blank e → Follows (.keyed label make) (g ++ n ++ e) (make key)
  | bare {label : String} {c : Command} {e : List Char} : Blank e → Follows (.bare label c) e c
  | leading {c : Command} {r : List Char} : Stops r → Follows (.leading c) r c

/-- The line is this command. -/
def Written (s : List Char) (c : Command) : Prop :=
  ∃ b w r name k, Blank b ∧ Named name k ∧ Spells w name ∧ Follows k r c ∧ s = b ++ w ++ r

variable {key : UInt64} {b r s w : List Char} {name : String} {k : Kind} {c : Command}

/-! ## Keys -/

theorem foldl_digits (ds : List Char) (n : Nat) :
    ds.foldl (fun n c => 10 * n + (c.toNat - '0'.toNat)) n = n * 10 ^ ds.length + placeValue ds := by
  induction ds generalizing n with
  | nil => simp [placeValue]
  | cons d ds ih =>
    have hshift : (10 * n + (d.toNat - '0'.toNat)) * 10 ^ ds.length =
        n * 10 ^ (ds.length + 1) + (d.toNat - '0'.toNat) * 10 ^ ds.length := by
      rw [Nat.add_mul, Nat.pow_succ, Nat.mul_comm 10 n, Nat.mul_assoc, Nat.mul_comm 10]
    rw [List.foldl_cons, ih, placeValue, List.length_cons, hshift, Nat.add_assoc]

theorem digitsValue_eq (ds : List Char) : digitsValue ds = placeValue ds := by
  rw [digitsValue, foldl_digits, Nat.zero_mul, Nat.zero_add]

/-- Digits that are read as a key. -/
theorem ofNat_digits_iff (ds : List Char) :
    (if ds.isEmpty || !ds.all Char.isDigit then none else
      if digitsValue ds < UInt64.size then some (.ofNat (digitsValue ds)) else none) = some key ↔
    ds ≠ [] ∧ (∀ d ∈ ds, d.isDigit) ∧ placeValue ds = key.toNat := by
  rw [digitsValue_eq]
  by_cases hds : ds ≠ [] ∧ ∀ d ∈ ds, d.isDigit
  · have hread : (ds.isEmpty || !ds.all Char.isDigit) = false := by
      simpa using hds
    rw [hread, if_neg (by decide)]
    constructor
    · intro h
      split at h
      case isTrue hlt =>
        cases h
        exact ⟨hds.1, hds.2, (UInt64.toNat_ofNat_of_lt' hlt).symm⟩
      case isFalse => cases h
    · rintro ⟨-, -, hvalue⟩
      have hlt : placeValue ds < UInt64.size := hvalue ▸ key.toNat_lt
      rw [if_pos hlt, hvalue, UInt64.ofNat_toNat]
  · have hrefused : (ds.isEmpty || !ds.all Char.isDigit) = true := by
      by_contra hread
      exact hds (by simpa using hread)
    rw [hrefused, if_pos rfl]
    constructor
    · intro h
      cases h
    · rintro ⟨hne, hdigits, -⟩
      exact absurd ⟨hne, hdigits⟩ hds

theorem key?_eq_some_iff : key? s = some key ↔ Numeral key s := by
  unfold key?
  dsimp only
  rw [ofNat_digits_iff]
  split
  case h_1 ds =>
    constructor
    · intro h
      exact ⟨ds, .inr rfl, h⟩
    · rintro ⟨ds', rfl | hds, hne, hdigits, hvalue⟩
      · -- a plus sign is not a digit
        exact absurd (hdigits '+' List.mem_cons_self) (by decide)
      · cases hds
        exact ⟨hne, hdigits, hvalue⟩
  case h_2 hplus =>
    constructor
    · intro h
      exact ⟨s, .inl rfl, h⟩
    · rintro ⟨ds, rfl | rfl, h⟩
      · exact h
      · exact absurd rfl (hplus ds)

/-- No blank lies between the zero and the small letters. -/
theorem isBlank_of_range {c : Char} (hlow : 0x30 ≤ c.toNat) (hhigh : c.toNat ≤ 0x7A) :
    isBlank c = false := by
  unfold isBlank
  simp only [Bool.or_eq_false_iff, Bool.and_eq_false_iff, decide_eq_false_iff_not,
    beq_eq_false_iff_ne]
  omega

theorem isBlank_digit {d : Char} (h : d.isDigit) : isBlank d = false := by
  unfold Char.isDigit at h
  simp only [Bool.and_eq_true, decide_eq_true_eq, ge_iff_le, UInt32.le_iff_toNat_le] at h
  have hhigh : d.toNat ≤ 0x39 := h.2
  exact isBlank_of_range h.1 (by omega)

theorem Numeral.word (h : Numeral key s) : Word s := by
  obtain ⟨ds, hs, hne, hdigits, -⟩ := h
  have hds : Unbroken ds := fun d hd => isBlank_digit (hdigits d hd)
  rcases hs with rfl | rfl
  · exact ⟨hne, hds⟩
  · refine ⟨List.cons_ne_nil _ _, ?_⟩
    intro d hd
    rcases List.mem_cons.1 hd with rfl | hd
    · decide
    · exact hds d hd

theorem keyOf_eq_ok_iff {label : String} : keyOf label s = .ok key ↔ Numeral key s := by
  rw [← key?_eq_some_iff]
  unfold keyOf
  by_cases hs : s = []
  · subst hs
    constructor
    · intro h
      cases h
    · intro h
      exact absurd rfl (key?_eq_some_iff.1 h).word.1
  · rw [if_neg (by simpa using hs)]
    cases key? s with
    | none => simp
    | some key' => simp

/-! ## Command words -/

theorem isBlank_toLower (c : Char) : isBlank c.toLower = isBlank c := by
  unfold Char.toLower
  split
  case isTrue h =>
    -- a capital letter and the small one for it are 32 apart
    simp only [ge_iff_le, UInt32.le_iff_toNat_le] at h
    have hlow : 65 ≤ c.toNat := h.1
    have hhigh : c.toNat ≤ 90 := h.2
    have hsmall : (c.val + ('a'.val - 'A'.val)).toNat = c.toNat + 32 := by
      have hapart : ('a'.val - 'A'.val).toNat = 32 := rfl
      rw [UInt32.toNat_add, hapart]
      exact Nat.mod_eq_of_lt (by change c.toNat + 32 < 2 ^ 32; omega)
    rw [isBlank_of_range (c := c) (by omega) (by omega)]
    apply isBlank_of_range
    · exact Nat.le_trans (by omega) (Nat.le_of_eq hsmall.symm)
    · exact Nat.le_trans (Nat.le_of_eq hsmall) (by omega)
  case isFalse => rfl

theorem Spells.unbroken (h : Spells w name) (hname : Unbroken name.toList) : Unbroken w := by
  intro c hc
  have hmem : c.toLower ∈ name.toList.map Char.toLower := h ▸ List.mem_map_of_mem hc
  obtain ⟨d, hd, hsame⟩ := List.mem_map.1 hmem
  rw [← isBlank_toLower, ← hsame, isBlank_toLower]
  exact hname d hd

theorem Named.word (h : Named name k) : Word name.toList := by
  cases h <;> decide

theorem Named.spells_iff (h : Named name k) :
    Spells w name ↔ String.ofList (w.map Char.toLower) = name := by
  have hlower : String.ofList (name.toList.map Char.toLower) = name := by cases h <;> rfl
  unfold Spells
  rw [← String.ofList_inj, hlower]

theorem Spells.word (h : Spells w name) (hn : Named name k) : Word w := by
  refine ⟨?_, h.unbroken hn.word.2⟩
  rintro rfl
  have hnil : name.toList.map Char.toLower = [] := h.symm
  exact hn.word.1 (List.map_eq_nil_iff.1 hnil)

/-! ## The text behind the word -/

/-- Reads what stands behind the word for a command. -/
def Kind.read : Kind → List Char → Except LineFault Command
  | .add, s => addOf s
  | .keyed label make, s => (keyOf label s).map make
  | .bare label c, s => alone label s c
  | .leading c, _ => .ok c

theorem Follows.stops (h : Follows k r c) : Stops r := by
  cases h with
  | add hg =>
    simp only [List.append_assoc]
    exact hg.stops _
  | keyed hg =>
    rw [List.append_assoc]
    exact hg.stops _
  | bare he => exact he.stops
  | leading hr => exact hr

theorem addOf_eq (s : List Char) : addOf s = (keyOf "add" (splitFirst s).1).bind fun key =>
    if (trimStart (splitFirst s).2).isEmpty then .error (.missing "add" "value")
    else .ok (.add key (String.ofList (trimStart (splitFirst s).2))) := by
  unfold addOf
  rcases splitFirst s with ⟨n, x⟩
  dsimp only
  cases keyOf "add" n with
  | error e => rfl
  | ok key =>
    by_cases hv : (trimStart x).isEmpty
    · simp only [bind, Except.bind, if_pos hv]
      rfl
    · simp only [bind, Except.bind, if_neg hv]
      rfl

theorem addOf_ok_iff : addOf s = .ok c ↔ ∃ key, Numeral key (splitFirst s).1 ∧
    trimStart (splitFirst s).2 ≠ [] ∧ c = .add key (String.ofList (trimStart (splitFirst s).2)) := by
  rw [addOf_eq]
  constructor
  · intro h
    cases hkey : keyOf "add" (splitFirst s).1 with
    | error e =>
      rw [hkey] at h
      cases h
    | ok key =>
      rw [hkey] at h
      by_cases hv : trimStart (splitFirst s).2 = []
      · simp [Except.bind, hv] at h
      · have hvalue : (trimStart (splitFirst s).2).isEmpty = false := by simpa using hv
        simp only [Except.bind, hvalue] at h
        cases h
        exact ⟨key, keyOf_eq_ok_iff.1 hkey, hv, rfl⟩
  · rintro ⟨key, hkey, hv, rfl⟩
    have hvalue : (trimStart (splitFirst s).2).isEmpty = false := by simpa using hv
    rw [keyOf_eq_ok_iff.2 hkey, hvalue]
    rfl

/-- What is read as an insertion is a key, a gap and the value. -/
theorem addOf_written_iff (hs : Tight s) : addOf s = .ok c ↔ ∃ key n g v, Numeral key n ∧ Gap g ∧
    v ≠ [] ∧ Tight v ∧ s = n ++ g ++ v ∧ c = .add key (String.ofList v) := by
  rw [addOf_ok_iff]
  constructor
  · rintro ⟨key, hkey, hv, rfl⟩
    obtain ⟨n, r, hn, hr, rfl⟩ := exists_stop s
    cases r with
    | nil =>
      rw [List.append_nil, splitFirst_word hn] at hv
      exact absurd rfl hv
    | cons d x =>
      rw [splitFirst_cons hn (hr d rfl)] at hkey hv ⊢
      obtain ⟨g, hg, hx, hfirst⟩ := exists_trimStart x
      have hall : n ++ d :: x = n ++ (d :: g) ++ trimStart x := by
        rw [List.append_assoc, List.cons_append, ← hx]
      refine ⟨key, n, d :: g, trimStart x, hkey, ⟨List.cons_ne_nil _ _, ?_⟩, hv, ⟨hfirst, ?_⟩, hall,
        rfl⟩
      · intro a ha
        rcases List.mem_cons.1 ha with rfl | ha
        · exact hr a rfl
        · exact hg a ha
      · -- the value ends where the whole text does
        intro a ha
        apply hs.2
        rwa [hall, List.getLast?_append_of_ne_nil _ hv]
  · rintro ⟨key, n, g, v, hn, hg, hv, htight, rfl, rfl⟩
    obtain ⟨g', hg', hsplit⟩ := splitFirst_gap hn.word.2 hg v
    rw [hsplit, trimStart_append hg' htight.1]
    exact ⟨key, hn, hv, rfl⟩

theorem alone_eq_ok_iff {label : String} {c' : Command} :
    alone label s c = .ok c' ↔ s = [] ∧ c' = c := by
  unfold alone
  cases s with
  | nil => simp [eq_comm]
  | cons d s => simp

/-- Reading takes exactly what the grammar lets follow the word. -/
theorem Kind.read_trim_iff (hr : Stops r) : k.read (trim r) = .ok c ↔ Follows k r c := by
  obtain ⟨-, -, -, -, htight, -⟩ := exists_trim r
  cases k with
  | add =>
    rw [read, addOf_written_iff htight]
    constructor
    · rintro ⟨key, n, g', v, hn, hg', hv, hvtight, hrest, rfl⟩
      have hne : trim r ≠ [] := by simp [hrest, hv]
      obtain ⟨g, e, hg, he, hall⟩ := hr.exists_gap hne
      rw [hall, hrest]
      simp only [← List.append_assoc]
      exact .add hg hn hg' hv hvtight he
    · intro h
      cases h with
      | @add key g n g' v e hg hn hg' hv hvtight he =>
        have hinner : Tight (n ++ g' ++ v) := hn.word.2.tight.append hvtight hn.word.1 hv
        have hsame := trim_eq hg.2 hinner he
        simp only [← List.append_assoc] at hsame
        exact ⟨key, n, g', v, hn, hg', hv, hvtight, hsame, rfl⟩
  | keyed label make =>
    rw [read]
    constructor
    · intro h
      cases hkey : keyOf label (trim r) with
      | error e =>
        rw [hkey] at h
        cases h
      | ok key =>
        rw [hkey] at h
        cases h
        have hn := keyOf_eq_ok_iff.1 hkey
        obtain ⟨g, e, hg, he, hall⟩ := hr.exists_gap hn.word.1
        rw [hall]
        exact .keyed hg hn he
    · intro h
      cases h with
      | keyed hg hn he =>
        rw [trim_eq hg.2 hn.word.2.tight he, keyOf_eq_ok_iff.2 hn]
        rfl
  | bare label c' =>
    rw [read, alone_eq_ok_iff, trim_eq_nil_iff]
    constructor
    · rintro ⟨he, rfl⟩
      exact .bare he
    · intro h
      cases h with
      | bare he => exact ⟨he, rfl⟩
  | leading c' =>
    rw [read]
    constructor
    · intro h
      cases h
      exact .leading hr
    · intro h
      cases h
      rfl

theorem keyOf_ne_empty (label : String) (s : List Char) : keyOf label s ≠ .error .empty := by
  unfold keyOf
  split
  · simp
  · split
    · simp
    · simp

theorem Kind.read_ne_empty (k : Kind) (s : List Char) : k.read s ≠ .error .empty := by
  cases k with
  | add =>
    have hkey := keyOf_ne_empty "add" (splitFirst s).1
    rw [read, addOf_eq]
    cases h : keyOf "add" (splitFirst s).1 with
    | error e => simpa [h, Except.bind] using hkey
    | ok key =>
      dsimp only [Except.bind]
      split
      · simp
      · simp
  | keyed label make =>
    have hkey := keyOf_ne_empty label s
    rw [read]
    cases h : keyOf label s with
    | error e => simpa [h, Except.map] using hkey
    | ok key => simp [Except.map]
  | bare label c =>
    rw [read]
    unfold alone
    split
    · simp
    · simp
  | leading c => simp [read]

/-! ## Lines -/

theorem parse_blank {line : String} (h : Blank line.toList) : parse line = .error .empty := by
  unfold parse
  rw [trim_eq_nil_iff.2 h]
  rfl

theorem parse_named {line : String} (hline : line.toList = b ++ w ++ r) (hb : Blank b)
    (hr : Stops r) (hn : Named name k) (hs : Spells w name) : parse line = k.read (trim r) := by
  obtain ⟨x, hsplit, htrim⟩ := splitFirst_trim hb (hs.word hn) hr
  unfold parse
  rw [hline, hsplit]
  dsimp only
  rw [hn.spells_iff.1 hs, htrim]
  cases hn <;> rfl

theorem parse_unnamed {line : String} (hline : line.toList = b ++ w ++ r) (hb : Blank b)
    (hw : Word w) (hr : Stops r) (hnone : ∀ name k, Named name k → ¬Spells w name) :
    parse line = .error (.unknown (String.ofList (w.map Char.toLower))) := by
  obtain ⟨x, hsplit, -⟩ := splitFirst_trim hb hw hr
  have hother : ∀ {name k}, Named name k → String.ofList (w.map Char.toLower) ≠ name :=
    fun hn hname => hnone _ _ hn (hn.spells_iff.2 hname)
  unfold parse
  rw [hline, hsplit]
  dsimp only
  split
  next hname =>
    have hnil : w.map Char.toLower = [] := by simpa using congrArg String.toList hname
    exact absurd (List.map_eq_nil_iff.1 hnil) hw.1
  next hname => exact absurd hname (hother .add)
  next hname => exact absurd hname (hother .insert)
  next hname => exact absurd hname (hother .get)
  next hname => exact absurd hname (hother .del)
  next hname => exact absurd hname (hother .delete)
  next hname => exact absurd hname (hother .scan)
  next hname => exact absurd hname (hother .print)
  next hname => exact absurd hname (hother .last)
  next hname => exact absurd hname (hother .tables)
  next hname => exact absurd hname (hother .help)
  next hname => exact absurd hname (hother .mark)
  next hname => exact absurd hname (hother .quit)
  next hname => exact absurd hname (hother .exit)
  next hname => exact absurd hname (hother .q)
  next => rfl

/-- A line is read as a command exactly if the grammar makes it that command, it is empty exactly if it
is blank, and every other line is another mistake. -/
theorem parse_grammar (line : String) :
    (∀ c, parse line = .ok c ↔ Written line.toList c) ∧
    (parse line = .error .empty ↔ Blank line.toList) ∧
    ((∀ c, ¬Written line.toList c) → ¬Blank line.toList →
      ∃ e, e ≠ .empty ∧ parse line = .error e) := by
  have hwritten : ∀ c, Written line.toList c → parse line = .ok c := by
    rintro c ⟨b, w, r, name, k, hb, hn, hs, hfollows, hline⟩
    rw [parse_named hline hb hfollows.stops hn hs]
    exact (Kind.read_trim_iff hfollows.stops).2 hfollows
  have hread : Blank line.toList ∨ parse line ≠ .error .empty ∧
      ∀ c, parse line = .ok c → Written line.toList c := by
    rcases exists_word line.toList with hblank | ⟨b, w, r, hb, hw, hr, hline⟩
    · exact .inl hblank
    right
    by_cases hnamed : ∃ name k, Named name k ∧ Spells w name
    · obtain ⟨name, k, hn, hs⟩ := hnamed
      rw [parse_named hline hb hr hn hs]
      refine ⟨k.read_ne_empty _, ?_⟩
      intro c hc
      exact ⟨b, w, r, name, k, hb, hn, hs, (Kind.read_trim_iff hr).1 hc, hline⟩
    · rw [parse_unnamed hline hb hw hr fun name k hn hs => hnamed ⟨name, k, hn, hs⟩]
      simp
  have hempty : parse line = .error .empty → Blank line.toList := fun h =>
    hread.resolve_right fun hother => hother.1 h
  refine ⟨fun c => ⟨?_, hwritten c⟩, ⟨hempty, parse_blank⟩, ?_⟩
  · intro hc
    rcases hread with hblank | ⟨-, hother⟩
    · cases hc.symm.trans (parse_blank hblank)
    · exact hother c hc
  · intro hnone hfull
    cases h : parse line with
    | ok c => exact absurd ((hread.resolve_left hfull).2 c h) (hnone c)
    | error e =>
      refine ⟨e, ?_, rfl⟩
      rintro rfl
      exact hfull (hempty h)

example : parse " Insert +007  two  words " = .ok (.add 7 "two  words") := by decide

end PagedTree.Shell.Command
