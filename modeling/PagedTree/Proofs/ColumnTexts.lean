import PagedTree.Catalog.Table
import PagedTree.Proofs.Words

/-! # Columns from the text of a table

The text that a table was made from lists its columns in parentheses. Whatever blanks the list is
written with, and whatever parentheses its words have in them, reading it gives the columns back.
-/
namespace PagedTree.Table

open PagedTree.Text

/-- A column as it is declared: its name and the words of its type. -/
structure Declaration where
  name : String
  type : List String
  plain : ∀ w ∈ name :: type, Word w.toList ∧ ',' ∉ w.toList

def Declaration.column (d : Declaration) : Column := ⟨d.name, " ".intercalate d.type⟩

/-- The declaration may be written so: its words with gaps between them and blanks around them. -/
def Declaration.Writes (d : Declaration) (text : String) : Prop := ∃ b s e, Blank b ∧
  Spaced ((d.name :: d.type).map String.toList) s ∧ Blank e ∧ text.toList = b ++ s ++ e

variable {d : Declaration} {ds : List Declaration} {text : String} {texts : List String}

theorem Declaration.Writes.words_eq (h : d.Writes text) :
    words text.toList = (d.name :: d.type).map String.toList := by
  obtain ⟨b, s, e, hb, hs, he, htext⟩ := h
  rw [htext]
  exact words_spaced hb hs he

theorem Declaration.Writes.column?_eq (h : d.Writes text) : column? text.toList = some d.column := by
  unfold column?
  rw [h.words_eq]
  simp [Declaration.column, Function.comp_def]

/-- Commas stand only between the columns. -/
theorem Declaration.Writes.no_comma (h : d.Writes text) : ',' ∉ text.toList := by
  obtain ⟨b, s, e, hb, hs, he, htext⟩ := h
  have hfull : isBlank ',' = false := by decide
  have hwords : ∀ w ∈ (d.name :: d.type).map String.toList, ',' ∉ w := by
    intro w hw
    obtain ⟨v, hv, rfl⟩ := List.mem_map.1 hw
    exact (d.plain v hv).2
  rw [htext]
  simp only [List.mem_append, not_or]
  exact ⟨⟨hb.notMem hfull, hs.notMem hfull hwords⟩, he.notMem hfull⟩

theorem commas_between (h : List.Forall₂ Declaration.Writes ds texts) :
    ∀ s ∈ texts.map String.toList, ',' ∉ s := by
  induction h with
  | nil => simp
  | cons hd _ ih =>
    rw [List.map_cons]
    exact List.forall_mem_cons.2 ⟨hd.no_comma, ih⟩

theorem filterMap_column? (h : List.Forall₂ Declaration.Writes ds texts) :
    (texts.map String.toList).filterMap column? = ds.map Declaration.column := by
  induction h with
  | nil => rfl
  | cons hd _ ih =>
    rw [List.map_cons, List.filterMap_cons_some hd.column?_eq, ih, List.map_cons]

/-- The list of columns reaches from the first opening parenthesis to the last closing one. -/
theorem columnText_eq {before inner after : List Char} (hbefore : '(' ∉ before)
    (hafter : ')' ∉ after) : columnText (before ++ '(' :: (inner ++ ')' :: after)) = inner := by
  have hskip : ∀ c ∈ before, decide (c ≠ '(') = true := by
    intro c hc
    have hne : c ≠ '(' := fun he => hbefore (he ▸ hc)
    simpa using hne
  have hback : ∀ c ∈ after.reverse, decide (c ≠ ')') = true := by
    intro c hc
    have hne : c ≠ ')' := fun he => hafter (he ▸ List.mem_reverse.1 hc)
    simpa using hne
  have hreverse : (inner ++ ')' :: after).reverse = after.reverse ++ ')' :: inner.reverse := by
    simp
  unfold columnText
  rw [List.dropWhile_append_of_pos hskip, List.dropWhile_cons_of_neg (by decide),
    List.drop_succ_cons, List.drop_zero]
  dsimp only
  rw [hreverse, List.dropWhile_append_of_pos hback, List.dropWhile_cons_of_neg (by decide),
    List.drop_succ_cons, List.drop_zero, List.reverse_reverse]

/-- Declarations in parentheses, in whatever text and with whatever blanks, are read as the columns
that they declare. -/
theorem columns_of_written {t : Table} {before after : String} (hne : ds ≠ [])
    (hwritten : List.Forall₂ Declaration.Writes ds texts) (hbefore : '(' ∉ before.toList)
    (hafter : ')' ∉ after.toList)
    (hsql : t.sql = before ++ "(" ++ ",".intercalate texts ++ ")" ++ after) :
    t.columns = ds.map Declaration.column := by
  have hlist : t.sql.toList =
      before.toList ++ '(' :: ([','].intercalate (texts.map String.toList) ++ ')' :: after.toList) := by
    rw [hsql]
    simp [String.toList_intercalate]
  have hsome : texts.map String.toList ≠ [] := by
    intro hnil
    rw [List.map_eq_nil_iff.1 hnil] at hwritten
    cases hwritten
    exact hne rfl
  have hcommas : ∀ s ∈ texts.map String.toList, ∀ c ∈ s, (c == ',') = false := by
    intro s hs c hc
    have hother : c ≠ ',' := fun he => commas_between hwritten s hs (he ▸ hc)
    simpa using hother
  unfold columns
  rw [hlist, columnText_eq hbefore hafter, splitAll_intercalate (by decide) hsome hcommas,
    filterMap_column? hwritten]

/-- A type may have parentheses of its own. -/
theorem columns_of_written_price :
    columns ⟨1, "t", 2, "make t( id INTEGER ,price  DECIMAL(10) NOT\tNULL );"⟩ =
      [⟨"id", "INTEGER"⟩, ⟨"price", "DECIMAL(10) NOT NULL"⟩] := by
  have hid : Declaration.Writes ⟨"id", ["INTEGER"], by decide⟩ " id INTEGER " := by
    have hspaced : Spaced ["id".toList, "INTEGER".toList]
        ("id".toList ++ " ".toList ++ "INTEGER".toList) :=
      .cons (by decide) (by decide) (.last (by decide))
    exact ⟨[' '], _, [' '], by decide, hspaced, by decide, by decide⟩
  have hprice : Declaration.Writes ⟨"price", ["DECIMAL(10)", "NOT", "NULL"], by decide⟩
      "price  DECIMAL(10) NOT\tNULL " := by
    have hspaced : Spaced ["price".toList, "DECIMAL(10)".toList, "NOT".toList, "NULL".toList]
        ("price".toList ++ "  ".toList ++ ("DECIMAL(10)".toList ++ " ".toList ++
          ("NOT".toList ++ "\t".toList ++ "NULL".toList))) :=
      .cons (by decide) (by decide) (.cons (by decide) (by decide)
        (.cons (by decide) (by decide) (.last (by decide))))
    exact ⟨[], _, [' '], by decide, hspaced, by decide, by decide⟩
  exact @columns_of_written _ _ _ "make t" ";" (List.cons_ne_nil _ _)
    (.cons hid (.cons hprice .nil)) (by decide) (by decide) rfl

end PagedTree.Table
