import PagedTree.Proofs.Journals
import PagedTree.Proofs.Shells
import PagedTree.Shell.Transcript

/-! # Runs one after the other

All that a run of the shell needs of the lines before is in the file: the header there says which pages are
handed out, every line has a handle of its own, and a line that fails leaves the file and the header in
step. So a run may be cut into two anywhere, as long as the first part does not end it.
-/
namespace PagedTree

namespace Transcript

theorem after_nothing (t : Transcript) : t.after "" "" = t := by
  simp [after]

theorem after_after (t : Transcript) (out err out' err' : String) :
    (t.after out err).after out' err' = t.after (out' ++ out) (err' ++ err) := by
  simp [after, String.append_assoc]

end Transcript

namespace Shell

variable {s : PageStore} {sh : Shell} {L : Layering} {f : SparseFile} {o : Options} {disk : Disk}
  {line : String} {A B : List String}

/-! ## Lists of lines -/

/-- A reply ends a run if it is that of `quit`, or if the program has died. -/
theorem printed_end {reply : Reply} {out err : String} {code : Nat}
    (h : reply.printed = (out, err, some code)) : (reply = .quit ∧ code = 0) ∨
      ((reply = .stopped .fault ∨ reply = .stopped .endless) ∧ code = faultCode) := by
  cases reply with
  | print text => cases h
  | rejected e => cases h
  | quit =>
    cases h
    exact .inl ⟨rfl, rfl⟩
  | stopped i =>
    cases i with
    | error e => cases h
    | fault =>
      cases h
      exact .inr ⟨.inl rfl, rfl⟩
    | endless =>
      cases h
      exact .inr ⟨.inr rfl, rfl⟩

section

variable {reply : Reply} {sh' : Shell} {out err : String} {code : Nat}

theorem runLines_blank (h : line.toList.all Text.isBlank = true) (lines : List String)
    (sh : Shell) : runLines (line :: lines) sh = runLines lines sh := by
  rw [runLines, if_pos h]

theorem runLines_next (hblank : line.toList.all Text.isBlank ≠ true)
    (hanswer : sh.answer line = (reply, sh')) (hprinted : reply.printed = (out, err, none))
    (lines : List String) : runLines (line :: lines) sh =
      ((runLines lines sh').1.after out err, (runLines lines sh').2) := by
  rw [runLines, if_neg hblank, hanswer]
  dsimp only
  rw [hprinted]

theorem runLines_end (hblank : line.toList.all Text.isBlank ≠ true)
    (hanswer : sh.answer line = (reply, sh')) (hprinted : reply.printed = (out, err, some code))
    (lines : List String) : runLines (line :: lines) sh = (⟨out, err, code⟩, sh') := by
  rw [runLines, if_neg hblank, hanswer]
  dsimp only
  rw [hprinted]

end

/-- The lines behind others go to the shell that these leave, unless one of them has ended the run. -/
theorem runLines_append (hquit : ∀ line ∈ A, Command.parse line ≠ .ok .quit)
    (hlive : (runLines A sh).1.code ≠ faultCode) (B : List String) :
    runLines (A ++ B) sh =
      ((runLines B (runLines A sh).2).1.after (runLines A sh).1.stdout (runLines A sh).1.stderr,
        (runLines B (runLines A sh).2).2) := by
  induction A generalizing sh with
  | nil => rw [List.nil_append, runLines, Transcript.after_nothing]
  | cons line A ih =>
    have hrest : ∀ l ∈ A, Command.parse l ≠ .ok .quit :=
      fun l hl => hquit l (List.mem_cons_of_mem _ hl)
    rw [List.cons_append]
    by_cases hblank : line.toList.all Text.isBlank = true
    · rw [runLines_blank hblank] at hlive
      rw [runLines_blank hblank, runLines_blank hblank]
      exact ih hrest hlive
    have hanswered := answer_answered sh line
    rcases hanswer : sh.answer line with ⟨reply, sh'⟩
    rw [hanswer] at hanswered
    rcases hprinted : reply.printed with ⟨out, err, _ | code⟩
    · rw [runLines_next hblank hanswer hprinted] at hlive
      rw [runLines_next hblank hanswer hprinted, runLines_next hblank hanswer hprinted,
        ih hrest hlive, Transcript.after_after]
      rfl
    · rw [runLines_end hblank hanswer hprinted] at hlive
      rcases printed_end hprinted with ⟨rfl, -⟩ | ⟨-, rfl⟩
      · cases hanswered with
        | quit hparse => exact absurd hparse (hquit line List.mem_cons_self)
      · exact absurd rfl hlive

theorem runLines_settled (sh : Shell) (hs : sh.store.Layered L) (lines : List String) :
    (runLines lines sh).2.store.Settled L ∧ (runLines lines sh).2.root = sh.root := by
  induction lines generalizing sh L with
  | nil => exact ⟨hs.settled, rfl⟩
  | cons line lines ih =>
    by_cases hblank : line.toList.all Text.isBlank = true
    · rw [runLines_blank hblank]
      exact ih sh hs
    obtain ⟨hsettled, hroot⟩ := (answer_answered sh line).settled hs
    rcases hanswer : sh.answer line with ⟨reply, sh'⟩
    rw [hanswer] at hsettled hroot
    rcases hprinted : reply.printed with ⟨out, err, _ | code⟩
    · obtain ⟨L', hL', hs'⟩ := hsettled
      obtain ⟨hend, hroot'⟩ := ih sh' hs'
      rw [runLines_next hblank hanswer hprinted]
      exact ⟨hend.mono hL', hroot'.trans hroot⟩
    · rw [runLines_end hblank hanswer hprinted]
      exact ⟨hsettled, hroot⟩

/-- Only `last` can be the death of a program. -/
theorem runLines_code (sh : Shell) (hs : sh.store.Layered L) {lines : List String}
    (hlast : ∀ line ∈ lines, Command.parse line ≠ .ok .last) : (runLines lines sh).1.code = 0 := by
  induction lines generalizing sh L with
  | nil => rfl
  | cons line lines ih =>
    have hrest : ∀ l ∈ lines, Command.parse l ≠ .ok .last :=
      fun l hl => hlast l (List.mem_cons_of_mem _ hl)
    by_cases hblank : line.toList.all Text.isBlank = true
    · rw [runLines_blank hblank]
      exact ih sh hs hrest
    obtain ⟨⟨L', -, hs'⟩, -⟩ := (answer_answered sh line).settled hs
    obtain ⟨hfault, hendless⟩ := (answer_answered sh line).stopped_iff hs
    rcases hanswer : sh.answer line with ⟨reply, sh'⟩
    rw [hanswer] at hs' hfault hendless
    rcases hprinted : reply.printed with ⟨out, err, _ | code⟩
    · rw [runLines_next hblank hanswer hprinted]
      exact ih sh' hs' hrest
    · rw [runLines_end hblank hanswer hprinted]
      rcases printed_end hprinted with ⟨-, rfl⟩ | ⟨hdead | hdead, -⟩
      · rfl
      · exact absurd (hfault.1 hdead).1 (hlast line List.mem_cons_self)
      · exact absurd hdead hendless

/-! ## Shells that differ in the journal -/

def withJournal (sh : Shell) (js : List SparseFile) : Shell :=
  { sh with store := sh.store.withJournal js }

theorem perform_blind (root : PageNo) (c : Command) :
    Call.Blind PageStore.withJournal (perform root c) := by
  cases c with
  | quit => exact .pure _
  | help => exact .pure _
  | add key value => exact (Tree.on_blind (Tree.insert_blind key _) root).bind fun _ => .pure _
  | get key =>
    refine (Tree.on_blind (Tree.get?_blind key) root).bind fun v => ?_
    cases v <;> exact .pure _
  | del key =>
    refine (Tree.on_blind (Tree.erase_blind key) root).bind fun erased => ?_
    cases erased <;> exact .pure _
  | scan => exact (Tree.on_blind Tree.scan_blind root).bind fun _ => .pure _
  | print => exact (Tree.on_blind Tree.dump_blind root).bind fun _ => .pure _
  | last =>
    refine Tree.on_blind (Tree.lastLeafSize_blind.bind fun size => ?_) root
    exact Tree.nextId_blind.bind fun next => .pure _
  | tables => exact Catalog.tables_blind.bind fun _ => .pure _

theorem answer_blind (sh : Shell) (js : List SparseFile) (line : String) : ∃ js',
    (sh.withJournal js).answer line = ((sh.answer line).1, (sh.answer line).2.withJournal js') := by
  unfold answer
  split
  · exact ⟨js, rfl⟩
  · exact ⟨js, rfl⟩
  case h_3 c _ _ =>
    obtain ⟨js', hrun⟩ := perform_blind sh.root c sh.store js
    refine ⟨js', ?_⟩
    simp only [show (sh.withJournal js).store = sh.store.withJournal js from rfl,
      show (sh.withJournal js).root = sh.root from rfl, hrun]
    rcases (perform sh.root c).result sh.store with ⟨r, store⟩
    cases r <;> rfl

theorem runLines_blind (lines : List String) (sh : Shell) (js : List SparseFile) : ∃ js',
    runLines lines (sh.withJournal js) =
      ((runLines lines sh).1, (runLines lines sh).2.withJournal js') := by
  induction lines generalizing sh js with
  | nil => exact ⟨js, rfl⟩
  | cons line lines ih =>
    by_cases hblank : line.toList.all Text.isBlank = true
    · rw [runLines_blank hblank, runLines_blank hblank]
      exact ih sh js
    obtain ⟨js₁, hanswer'⟩ := answer_blind sh js line
    rcases hanswer : sh.answer line with ⟨reply, sh'⟩
    rw [hanswer] at hanswer'
    rcases hprinted : reply.printed with ⟨out, err, _ | code⟩
    · obtain ⟨js₂, hrest⟩ := ih sh' js₁
      refine ⟨js₂, ?_⟩
      rw [runLines_next hblank hanswer' hprinted, runLines_next hblank hanswer hprinted, hrest]
    · refine ⟨js₁, ?_⟩
      rw [runLines_end hblank hanswer' hprinted, runLines_end hblank hanswer hprinted]

/-! ## Runs -/

/-- A database file that runs have left, the first of which has made it. -/
inductive Left : SparseFile → Prop where
  | first {o : Options} {lines : List String} {disk : Disk} {f : SparseFile} : o.create = true →
      (run o lines disk).2 = .file f → Left f
  | next {o : Options} {lines : List String} {f f' : SparseFile} : Left f →
      (run o lines (.file f)).2 = .file f' → Left f'

/-- The pages of the file are in layers. -/
def Stacked (f : SparseFile) : Prop :=
  ∃ (s : PageStore) (L : Layering), s.file = f ∧ 0 < L.count ∧ s.Layered L

theorem database_layered (hdisk : o.create = true ∨ ∃ f, disk = .file f ∧ Stacked f)
    (h : o.database disk = .ok s) : ∃ L : Layering, 0 < L.count ∧ s.Layered L := by
  unfold Options.database at h
  split at h
  case isTrue => exact ⟨.single, Nat.one_pos, Catalog.create_layered h⟩
  case isFalse hcreate =>
    obtain ⟨f, rfl, s', L, rfl, hcount, hs⟩ := hdisk.resolve_left hcreate
    obtain ⟨hload, hs'⟩ := Catalog.load_layered hs hcount o.path
    rw [hload] at h
    cases h
    exact ⟨L, hcount, hs'⟩

theorem run_start {store : PageStore} (hdatabase : o.database disk = .ok store)
    (hstart : start store o.root = .ok sh) (lines : List String) :
    run o lines disk = ((runLines lines sh).1, .file (runLines lines sh).2.store.file) := by
  rw [run, hdatabase]
  dsimp only
  rw [hstart]

theorem run_stacked (hdisk : o.create = true ∨ ∃ f, disk = .file f ∧ Stacked f) {lines : List String}
    (h : (run o lines disk).2 = .file f) : Stacked f := by
  cases hdatabase : o.database disk with
  | error i =>
    rw [run, hdatabase] at h
    obtain rfl : disk = .file f := h
    by_cases hcreate : o.create = true
    · -- a new database takes the place of any file
      obtain ⟨made, hmade⟩ := Catalog.exists_new
      obtain ⟨store, page, hstore, hpage⟩ := Catalog.create_iff.1 hmade
      have hnew : Catalog.create (.file f) = .ok made :=
        Catalog.create_iff.2 ⟨store, page, hstore, hpage⟩
      rw [Options.database, if_pos hcreate, hnew] at hdatabase
      cases hdatabase
    · obtain ⟨f', hf', hstacked⟩ := hdisk.resolve_left hcreate
      cases hf'
      exact hstacked
  | ok store =>
    obtain ⟨L, hcount, hs⟩ := database_layered hdisk hdatabase
    cases hstart : start store o.root with
    | error i =>
      rw [run, hdatabase] at h
      dsimp only at h
      rw [hstart] at h
      cases h
      exact ⟨store, L, rfl, hcount, hs⟩
    | ok sh =>
      obtain rfl := start_ok hstart
      rw [run_start hdatabase hstart] at h
      cases h
      obtain ⟨⟨L', hL', hs'⟩, -⟩ := runLines_settled ⟨store, o.root⟩ hs lines
      exact ⟨_, L', rfl, Nat.lt_of_lt_of_le hcount hL'.count_le, hs'⟩

theorem Left.stacked (h : Left f) : Stacked f := by
  induction h with
  | first hcreate hrun => exact run_stacked (.inl hcreate) hrun
  | next _ hrun ih => exact run_stacked (.inr ⟨_, rfl, ih⟩) hrun

theorem start_layered {root : PageNo} (hs : s.Layered L) (hroot : root.toNat < L.count) :
    start s root = .ok ⟨s, root⟩ := by
  obtain ⟨t, hload, -⟩ := Tree.load_layered hs hroot
  exact start_of_load hload

theorem lt_of_start {root : PageNo} (hs : s.Layered L) (hstart : start s root = .ok sh) :
    root.toNat < L.count := by
  by_contra hroot
  obtain ⟨e, hload⟩ := Tree.load_refused (hs.count ▸ hroot)
  rw [start, hload] at hstart
  cases hstart

/-- A run on the file that a shell has left goes on where the shell was. -/
theorem run_reopened (hs : sh.store.Layered L) (hroot : sh.root.toNat < L.count) (path : String)
    (lines : List String) : run ⟨path, false, sh.root⟩ lines (.file sh.store.file) =
      ((runLines lines sh).1, .file (runLines lines sh).2.store.file) := by
  obtain ⟨hload, hs'⟩ := Catalog.load_layered hs (Nat.zero_lt_of_lt hroot) path
  have hdatabase : Options.database ⟨path, false, sh.root⟩ (.file sh.store.file) =
      .ok sh.store.forgetJournal := by
    rw [Options.database, if_neg Bool.false_ne_true, hload]
  have hstart : start sh.store.forgetJournal sh.root = .ok (sh.withJournal []) :=
    start_layered hs' hroot
  obtain ⟨js, hblind⟩ := runLines_blind lines sh []
  rw [run_start hdatabase hstart, hblind]
  rfl

/-- One run on two lists of lines, of which the first neither quits nor kills the program, is a run on the
first and then a run on the second, on the file that is left: these print what the one prints, one after
the other, and leave the same file. -/
theorem run_append (hf : Left f)
    (hopen : ∃ s sh, o.database (.file f) = .ok s ∧ start s o.root = .ok sh)
    (hquit : ∀ line ∈ A, Command.parse line ≠ .ok .quit)
    (hlive : (run o A (.file f)).1.code ≠ faultCode) (B : List String) :
    run o (A ++ B) (.file f) =
      let (t, left) := run o A (.file f)
      let (u, left') := run { o with create := false } B left
      (u.after t.stdout t.stderr, left') := by
  obtain ⟨s, sh, hdatabase, hstart⟩ := hopen
  obtain ⟨L, -, hs⟩ := database_layered (.inr ⟨f, rfl, hf.stacked⟩) hdatabase
  have hlt := lt_of_start hs hstart
  obtain rfl := start_ok hstart
  obtain ⟨⟨L', hL', hs'⟩, hroot⟩ := runLines_settled ⟨s, o.root⟩ hs A
  have hlt' : (runLines A ⟨s, o.root⟩).2.root.toNat < L'.count :=
    hroot ▸ Nat.lt_of_lt_of_le hlt hL'.count_le
  have hsecond := run_reopened hs' hlt' o.path B
  rw [hroot] at hsecond
  rw [run_start hdatabase hstart] at hlive
  rw [run_start hdatabase hstart, run_start hdatabase hstart, runLines_append hquit hlive]
  dsimp only
  rw [hsecond]

/-- A run on a new file, then an entry and a look at it. -/
theorem run_append_of_two : ∃ f, Left f ∧
    run ⟨"", false, 0⟩ (["add 5 x"] ++ ["get 5"]) (.file f) =
      let (t, left) := run ⟨"", false, 0⟩ ["add 5 x"] (.file f)
      let (u, left') := run ⟨"", false, 0⟩ ["get 5"] left
      (u.after t.stdout t.stderr, left') := by
  obtain ⟨s, hcreate⟩ := Catalog.exists_new
  have hs := Catalog.create_layered hcreate
  have hstart : start s 0 = .ok ⟨s, 0⟩ := start_layered hs Nat.one_pos
  have hmade : Options.database ⟨"", true, 0⟩ .absent = .ok s := by
    rw [Options.database, if_pos rfl, hcreate]
  have hrun : (run ⟨"", true, 0⟩ [] .absent).2 = .file s.file := by
    rw [run_start hmade hstart, runLines]
  have hfirst : Left s.file := .first rfl hrun
  obtain ⟨hload, hs'⟩ := Catalog.load_layered hs Nat.one_pos ""
  have hdatabase : Options.database ⟨"", false, 0⟩ (.file s.file) = .ok s.forgetJournal := by
    rw [Options.database, if_neg Bool.false_ne_true, hload]
  have hstart' : start s.forgetJournal 0 = .ok ⟨s.forgetJournal, 0⟩ :=
    start_layered hs' Nat.one_pos
  have hparse : Command.parse "add 5 x" = .ok (.add 5 "x") := rfl
  refine ⟨s.file, hfirst, run_append hfirst ⟨_, _, hdatabase, hstart'⟩ ?_ ?_ ["get 5"]⟩
  · simp [hparse]
  · rw [run_start hdatabase hstart', runLines_code _ hs' (by simp [hparse])]
    decide

end Shell

end PagedTree
