import Mbtk.AtGenerator.Encoding

namespace Mbtk.AtGenerator

open Lib.CInit

section MapM

variable {α β γ : Type} {f g : α → Option β} {l : List α} {bs : List β}

theorem mapM_eq_some : l.mapM f = some bs ↔ l.map f = bs.map some := by
  induction l generalizing bs with
  | nil => cases bs <;> simp
  | cons a l ih =>
    rw [List.mapM_cons, List.map_cons]
    cases hfa : f a with
    | none => cases bs <;> simp
    | some b =>
      cases bs with
      | nil => cases l.mapM f <;> simp
      | cons b' bs =>
        rw [List.map_cons, List.cons.injEq, ← ih]
        cases l.mapM f <;> simp

theorem mapM_eq_none : l.mapM f = none ↔ ∃ a ∈ l, f a = none := by
  induction l with
  | nil => simp
  | cons a l ih =>
    rw [List.mapM_cons, List.exists_mem_cons_iff, ← ih]
    cases f a <;> cases l.mapM f <;> simp

theorem mapM_eq_iff (h : l.mapM f = some bs) : l.mapM g = some bs ↔ ∀ a ∈ l, g a = f a := by
  rw [mapM_eq_some, ← mapM_eq_some.mp h, List.map_inj_left]

theorem mapM_of_mapM {g : α → Option γ} {φ : β → γ} (hl : l.mapM f = some bs)
    (h : ∀ a ∈ l, ∀ b, f a = some b → g a = some (φ b)) : l.mapM g = some (bs.map φ) := by
  rw [mapM_eq_some] at hl ⊢
  have hg : l.map g = (l.map f).map (Option.map φ) := by
    rw [List.map_map]
    refine List.map_congr_left fun a ha => ?_
    obtain ⟨b, -, hb⟩ := List.mem_map.mp (hl ▸ List.mem_map_of_mem ha)
    rw [h a ha b hb.symm, Function.comp_apply, ← hb, Option.map_some]
  rw [hg, hl, List.map_map, List.map_map]
  rfl

theorem exists_mapM (h : ∀ a ∈ l, ∃ b, f a = some b) : ∃ bs, l.mapM f = some bs := by
  refine Option.isSome_iff_exists.mp (Option.isSome_iff_ne_none.mpr fun hnone => ?_)
  obtain ⟨a, ha, hfa⟩ := mapM_eq_none.mp hnone
  obtain ⟨b, hb⟩ := h a ha
  rw [hfa] at hb
  cases hb

end MapM

variable {table : List Row} {line : Row} {args pieces : List Text} {arg piece last name : Text}
  {k : ℕ} {params : List Param}

section Numbers

theorem cInt_eq_pyInt_iff {s : Text} {n : ℤ} (h : pyInt s = some n) :
    cInt s = pyInt s ↔ Plain s := by
  rw [h]
  exact cInt_eq_iff h

theorem exists_rangeOf (h : GoodRange piece) : ∃ r, rangeOf pyInt piece = some r := by
  cases h with
  | single number n hsplit hn => exact ⟨(n, n), by rw [rangeOf_single pyInt hsplit, hn]; rfl⟩
  | pair low high n m hsplit hn hm =>
    exact ⟨(n, m), by rw [rangeOf_pair pyInt hsplit, hn, hm]; rfl⟩

theorem rangeOf_eq_iff (h : GoodRange piece) :
    rangeOf cInt piece = rangeOf pyInt piece ↔ ∀ s ∈ piece.splitOn '-', Plain s := by
  cases h with
  | single number n hsplit hn =>
    rw [rangeOf_single cInt hsplit, rangeOf_single pyInt hsplit, hsplit,
      List.forall_mem_singleton, ← cInt_eq_pyInt_iff hn, hn]
    cases cInt number <;> simp
  | pair low high n m hsplit hn hm =>
    rw [rangeOf_pair cInt hsplit, rangeOf_pair pyInt hsplit, hsplit, List.forall_mem_cons,
      List.forall_mem_singleton, ← cInt_eq_pyInt_iff hn, ← cInt_eq_pyInt_iff hm, hn, hm]
    cases cInt low <;> cases cInt high <;> simp

theorem exists_paramOf (h : GoodArg arg) : ∃ param, paramOf pyInt arg = some param := by
  unfold paramOf
  cases h with
  | string n hs _ _ hn => exact ⟨.string n, by rw [if_pos hs, hn]; rfl⟩
  | numeric hs _ hranges =>
    obtain ⟨ranges, hmapM⟩ := exists_mapM fun piece hpiece => exists_rangeOf (hranges piece hpiece)
    exact ⟨.numeric ranges, by rw [if_neg hs, hmapM]; rfl⟩

theorem paramOf_eq_iff (h : GoodArg arg) :
    paramOf cInt arg = paramOf pyInt arg ↔ ∀ s ∈ numbers arg, Plain s := by
  unfold paramOf numbers
  cases h with
  | string n hs _ _ hn =>
    rw [if_pos hs, if_pos hs, if_pos hs, List.forall_mem_singleton, ← cInt_eq_pyInt_iff hn, hn]
    cases cInt (slice arg 2) <;> simp
  | numeric hs _ hranges =>
    obtain ⟨ranges, hmapM⟩ := exists_mapM fun piece hpiece => exists_rangeOf (hranges piece hpiece)
    have hpieces : (argRange arg).mapM (rangeOf cInt) = some ranges ↔
        ∀ piece ∈ argRange arg, ∀ s ∈ piece.splitOn '-', Plain s := by
      rw [mapM_eq_iff hmapM]
      exact forall₂_congr fun piece hpiece => rangeOf_eq_iff (hranges piece hpiece)
    rw [if_neg hs, if_neg hs, if_neg hs, hmapM, List.forall_mem_flatMap, ← hpieces]
    cases (argRange arg).mapM (rangeOf cInt) <;> simp

theorem exists_entryOf (h : GoodRow line) : ∃ entry, entryOf pyInt line = some entry := by
  obtain ⟨type, htype⟩ := h.type
  obtain ⟨params, hparams⟩ := exists_mapM fun arg harg => exists_paramOf (h.args arg harg)
  unfold entryOf
  rw [htype, hparams]
  exact ⟨_, rfl⟩

theorem entryOf_eq_iff (h : GoodRow line) :
    entryOf cInt line = entryOf pyInt line ↔ Plain (line.getD 1 []) ∧
      ∀ arg ∈ line.drop 2, ∀ s ∈ numbers arg, Plain s := by
  obtain ⟨type, htype⟩ := h.type
  obtain ⟨params, hparams⟩ := exists_mapM fun arg harg => exists_paramOf (h.args arg harg)
  have hargs : (line.drop 2).mapM (paramOf cInt) = some params ↔
      ∀ arg ∈ line.drop 2, ∀ s ∈ numbers arg, Plain s := by
    rw [mapM_eq_iff hparams]
    exact forall₂_congr fun arg harg => paramOf_eq_iff (h.args arg harg)
  rw [← hargs, ← cInt_eq_pyInt_iff htype]
  unfold entryOf
  rw [htype, hparams]
  cases cInt (line.getD 1 []) <;> cases (line.drop 2).mapM (paramOf cInt) <;> simp

end Numbers

section Ranges

theorem rangeItems_of_unrepeated (h : ∀ piece ∈ pieces.dropLast, ¬ sameObject piece last) :
    rangeItems last pieces =
      (pieces.mapM (rangeOf cInt)).map fun ranges => ranges.map pairItem := by
  induction pieces with
  | nil => rfl
  | cons piece pieces ih =>
    rw [rangeItems, List.mapM_cons]
    cases pieces with
    | nil =>
      rw [if_neg fun h => h.1 rfl]
      cases rangeOf cInt piece <;> rfl
    | cons next pieces =>
      rw [List.dropLast_cons_of_ne_nil (List.cons_ne_nil _ _), List.forall_mem_cons] at h
      rw [if_neg fun hsame => h.1 hsame.2, ih h.2]
      cases rangeOf cInt piece with
      | none => rfl
      | some r => cases (next :: pieces).mapM (rangeOf cInt) <;> rfl

theorem rangeItems_of_repeated (hpiece : piece ∈ pieces.dropLast) (hsame : sameObject piece last) :
    rangeItems last pieces = none := by
  induction pieces with
  | nil => cases hpiece
  | cons first pieces ih =>
    cases pieces with
    | nil => cases hpiece
    | cons next pieces =>
      rw [List.dropLast_cons_of_ne_nil (List.cons_ne_nil _ _)] at hpiece
      rw [rangeItems]
      rcases List.mem_cons.mp hpiece with rfl | hpiece
      · exact if_pos ⟨List.cons_ne_nil _ _, hsame⟩
      · rw [ih hpiece]
        split_ifs
        · rfl
        · cases rangeOf cInt first <;> rfl

end Ranges

section Params

theorem paramDecl_of_unrepeated (h : GoodArg arg) (hun : Unrepeated arg) :
    paramDecl name k arg = (paramOf cInt arg).map (Param.decl name k) := by
  unfold paramDecl paramOf
  cases h with
  | string n hs hstring htail hn =>
    rw [if_pos hs, if_pos hstring, htail]
    cases cInt (slice arg 2) <;> rfl
  | numeric hs hstring hranges =>
    rw [if_neg hs, hstring, if_neg Bool.false_ne_true, rangeItems_of_unrepeated (hun hs)]
    cases (argRange arg).mapM (rangeOf cInt) <;> rfl

theorem paramDecl_of_repeated (h : GoodArg arg) (hun : ¬ Unrepeated arg) :
    paramDecl name k arg = none := by
  unfold Unrepeated at hun
  push Not at hun
  obtain ⟨hs, piece, hpiece, hsame⟩ := hun
  unfold paramDecl
  cases h with
  | string n hs' => exact absurd hs' hs
  | numeric _ hstring hranges =>
    rw [hstring, if_neg Bool.false_ne_true, rangeItems_of_repeated hpiece hsame]
    rfl

theorem paramDecls_of_unrepeated (h : ∀ arg ∈ args, GoodArg arg)
    (hun : ∀ arg ∈ args, Unrepeated arg) :
    paramDecls name k args = (args.mapM (paramOf cInt)).map (Param.decls name k) := by
  induction args generalizing k with
  | nil => rfl
  | cons arg args ih =>
    rw [List.forall_mem_cons] at h hun
    rw [paramDecls, List.mapM_cons, paramDecl_of_unrepeated h.1 hun.1, ih h.2 hun.2]
    cases paramOf cInt arg with
    | none => rfl
    | some param => cases args.mapM (paramOf cInt) <;> rfl

theorem paramDecls_of_repeated (h : ∀ arg ∈ args, GoodArg arg) (harg : arg ∈ args)
    (hun : ¬ Unrepeated arg) : paramDecls name k args = none := by
  induction args generalizing k with
  | nil => cases harg
  | cons first args ih =>
    rw [List.forall_mem_cons] at h
    rw [paramDecls]
    rcases List.mem_cons.mp harg with rfl | harg
    · rw [paramDecl_of_repeated h.1 hun]
      rfl
    · rw [ih h.2 harg]
      cases paramDecl name k first <;> rfl

theorem infoItem_of_param {param : Param} (h : GoodArg arg)
    (hparam : paramOf cInt arg = some param) : infoItem name k arg = param.info name k := by
  unfold paramOf at hparam
  unfold infoItem
  cases h with
  | string n hs hstring =>
    rw [if_pos hs] at hparam
    obtain ⟨maxLen, -, rfl⟩ := Option.map_eq_some_iff.mp hparam
    rw [if_pos hstring]
    rfl
  | numeric hs hstring =>
    rw [if_neg hs] at hparam
    obtain ⟨ranges, hranges, rfl⟩ := Option.map_eq_some_iff.mp hparam
    have hlength : (argRange arg).length = ranges.length := by
      have := congrArg List.length (mapM_eq_some.mp hranges)
      simpa using this
    rw [hstring, if_neg Bool.false_ne_true, hlength]
    rfl

theorem infoItems_of_params (h : ∀ arg ∈ args, GoodArg arg)
    (hparams : args.mapM (paramOf cInt) = some params) :
    infoItems name k args = Param.infos name k params := by
  induction args generalizing k params with
  | nil =>
    cases hparams
    rfl
  | cons arg args ih =>
    rw [List.forall_mem_cons] at h
    rw [List.mapM_cons] at hparams
    obtain ⟨param, hparam, hparams⟩ := Option.bind_eq_some_iff.mp hparams
    obtain ⟨rest, hrest, heq⟩ := Option.bind_eq_some_iff.mp hparams
    cases heq
    rw [infoItems, Param.infos, infoItem_of_param h.1 hparam, ih h.2 hrest]

end Params

section Rows

theorem rowDecls_of_unrepeated (h : GoodRow line) (hun : ∀ arg ∈ line.drop 2, Unrepeated arg)
    (hparams : (line.drop 2).mapM (paramOf cInt) = some params) :
    rowDecls line = some (nameDecl line :: (Param.decls (atName line) 1 params ++
      [⟨PARAM_INFO_T, infoIdent (atName line), Param.infos (atName line) 1 params⟩])) := by
  unfold rowDecls infoDecl
  rw [paramDecls_of_unrepeated h.args hun, hparams, infoItems_of_params h.args hparams]
  rfl

theorem rowDecls_of_none (h : GoodRow line) (hparams : (line.drop 2).mapM (paramOf cInt) = none) :
    rowDecls line = none := by
  unfold rowDecls
  by_cases hun : ∀ arg ∈ line.drop 2, Unrepeated arg
  · rw [paramDecls_of_unrepeated h.args hun, hparams]
    rfl
  · push Not at hun
    obtain ⟨arg, harg, hun⟩ := hun
    rw [paramDecls_of_repeated h.args harg hun]
    rfl

theorem entryOf_cInt {entry : Entry} (h : entryOf cInt line = some entry) :
    ∃ type params, cInt (line.getD 1 []) = some type ∧
      (line.drop 2).mapM (paramOf cInt) = some params ∧
      entry = ⟨line.getD 0 [], (line.getD 0 []).length, type, (line.length - 2 : ℕ), params⟩ := by
  obtain ⟨type, htype, h⟩ := Option.bind_eq_some_iff.mp h
  obtain ⟨params, hparams, h⟩ := Option.bind_eq_some_iff.mp h
  exact ⟨type, params, htype, hparams, (Option.some.inj h).symm⟩

theorem rowDecls_of_entry {entry : Entry} (h : GoodRow line)
    (hun : ∀ arg ∈ line.drop 2, Unrepeated arg) (hentry : entryOf cInt line = some entry) :
    rowDecls line = some entry.decls := by
  obtain ⟨type, params, -, hparams, rfl⟩ := entryOf_cInt hentry
  rw [rowDecls_of_unrepeated h hun hparams]
  rfl

theorem entryItem_of_entry {entry : Entry} (hentry : entryOf cInt line = some entry) :
    entryItem line = some entry.init := by
  obtain ⟨type, params, htype, -, rfl⟩ := entryOf_cInt hentry
  rw [entryItem, htype]
  rfl

theorem fileDecls_of_unrepeated (h : ∀ line ∈ table, GoodRow line)
    (hun : ∀ line ∈ table, ∀ arg ∈ line.drop 2, Unrepeated arg) :
    fileDecls table = (tableOf cInt table).map declsOf := by
  unfold fileDecls
  cases htable : tableOf cInt table with
  | some entries =>
    rw [mapM_of_mapM htable fun line hline entry =>
        rowDecls_of_entry (h line hline) (hun line hline),
      mapM_of_mapM htable fun line _ entry => entryItem_of_entry]
    rfl
  | none =>
    obtain ⟨line, hline, hentry⟩ := mapM_eq_none.mp htable
    cases htype : cInt (line.getD 1 []) with
    | none =>
      have hitem : entryItem line = none := by
        unfold entryItem
        rw [htype]
        rfl
      rw [mapM_eq_none.mpr ⟨line, hline, hitem⟩]
      cases table.mapM rowDecls <;> rfl
    | some type =>
      cases hparams : (line.drop 2).mapM (paramOf cInt) with
      | none =>
        rw [mapM_eq_none.mpr ⟨line, hline, rowDecls_of_none (h line hline) hparams⟩]
        rfl
      | some params =>
        unfold entryOf at hentry
        rw [htype, hparams] at hentry
        cases hentry

theorem fileDecls_of_repeated (h : ∀ line ∈ table, GoodRow line) (hline : line ∈ table)
    (harg : arg ∈ line.drop 2) (hun : ¬ Unrepeated arg) : fileDecls table = none := by
  have hrow : rowDecls line = none := by
    unfold rowDecls
    rw [paramDecls_of_repeated (h line hline).args harg hun]
    rfl
  unfold fileDecls
  rw [mapM_eq_none.mpr ⟨line, hline, hrow⟩]
  rfl

end Rows

section Table

theorem ident_of_good (h : GoodRow line) : Ident (atName line) := by
  refine ⟨h.first, fun c hc => ?_⟩
  rintro rfl
  rcases h.atName _ hc with hupper | hdigit
  · cases hupper
  · cases hdigit

theorem idents_of_table {entries : List Entry} (h : tableOf cInt table = some entries) :
    entries.map Entry.ident = table.map atName := by
  have hident : ∀ line ∈ table, ∀ entry, entryOf cInt line = some entry →
      some (atName line) = some entry.ident := by
    intro line _ entry hentry
    obtain ⟨type, params, -, -, rfl⟩ := entryOf_cInt hentry
    rfl
  have hsome : (table.map atName).map some = (entries.map Entry.ident).map some := by
    rw [List.map_map]
    exact mapM_eq_some.mp (mapM_of_mapM h hident)
  exact (List.map_injective_iff.mpr (Option.some_injective _) hsome).symm

theorem readTable_fileInfoCWrite (h : ∀ line ∈ table, GoodRow line)
    (hnodup : (table.map atName).Nodup)
    (hun : ∀ line ∈ table, ∀ arg ∈ line.drop 2, Unrepeated arg) :
    readTable (fileInfoCWrite table) = tableOf cInt table := by
  unfold readTable
  rw [read_fileInfoCWrite h, fileDecls_of_unrepeated h hun]
  cases htable : tableOf cInt table with
  | none => rfl
  | some entries =>
    have hidents := idents_of_table htable
    refine decode_declsOf ?_ (hidents ▸ hnodup)
    intro entry hentry
    obtain ⟨line, hline, heq⟩ := List.mem_map.mp (hidents ▸ List.mem_map_of_mem hentry)
    exact heq ▸ ident_of_good (h line hline)

/-- The text for a table that is taken says what the table says exactly if no piece of one
character stands before an equal last piece and no number from 8 on has a leading 0. -/
theorem readTable_iff (table : List Row) (h : atDefineCheck table = some true) :
    ∃ entries, tableOf pyInt table = some entries ∧
      (readTable (fileInfoCWrite table) = some entries ↔ Readable table) := by
  obtain ⟨hgood, hnodup⟩ := good_of_check h
  obtain ⟨entries, hentries⟩ : ∃ entries, tableOf pyInt table = some entries :=
    exists_mapM fun line hline => exists_entryOf (hgood line hline)
  refine ⟨entries, hentries, ?_⟩
  by_cases hun : ∀ line ∈ table, ∀ arg ∈ line.drop 2, Unrepeated arg
  · rw [readTable_fileInfoCWrite hgood hnodup hun]
    refine (mapM_eq_iff hentries).trans (forall₂_congr fun line hline => ?_)
    rw [entryOf_eq_iff (hgood line hline)]
    exact and_congr_right fun _ => forall₂_congr fun arg harg =>
      (and_iff_right (hun line hline arg harg)).symm
  · push Not at hun
    obtain ⟨line, hline, arg, harg, hrep⟩ := hun
    unfold readTable
    rw [read_fileInfoCWrite hgood, fileDecls_of_repeated hgood hline harg hrep]
    refine iff_of_false (fun hnone => by cases hnone) fun hread => ?_
    exact hrep ((hread line hline).2 arg harg).1

def signalTable : List Row := [["+CSQ", "3", "(0-31 99)", "(s20)"].map String.toList]

theorem readTable_signalTable : ∃ entries, tableOf pyInt signalTable = some entries ∧
    readTable (fileInfoCWrite signalTable) = some entries := by
  obtain ⟨entries, hentries, hread⟩ := readTable_iff signalTable (by decide)
  exact ⟨entries, hentries, hread.mpr (by decide)⟩

def repeatedTable : List Row := [["I", "2", "(0 1 0)"].map String.toList]
def octalTable : List Row := [["I", "2", "(010)"].map String.toList]

/-- The text for a repeated piece is no C, and a leading 0 changes a number. -/
theorem readTable_repeatedTable :
    (atDefineCheck repeatedTable = some true ∧
      tableOf pyInt repeatedTable =
        some [⟨"I".toList, 1, 2, 1, [.numeric [(0, 0), (1, 1), (0, 0)]]⟩] ∧
      readTable (fileInfoCWrite repeatedTable) = none) ∧
    atDefineCheck octalTable = some true ∧
      tableOf pyInt octalTable = some [⟨"I".toList, 1, 2, 1, [.numeric [(10, 10)]]⟩] ∧
      readTable (fileInfoCWrite octalTable) =
        some [⟨"I".toList, 1, 2, 1, [.numeric [(8, 8)]]⟩] := by
  have hrepeated : atDefineCheck repeatedTable = some true := by decide
  have hoctal : atDefineCheck octalTable = some true := by decide
  refine ⟨⟨hrepeated, by decide, ?_⟩, hoctal, by decide, ?_⟩
  · obtain ⟨hgood, -⟩ := good_of_check hrepeated
    have harg : "(0 1 0)".toList ∈ (["I", "2", "(0 1 0)"].map String.toList).drop 2 := by decide
    unfold readTable
    rw [read_fileInfoCWrite hgood,
      fileDecls_of_repeated hgood List.mem_cons_self harg (by decide)]
    rfl
  · obtain ⟨hgood, hnodup⟩ := good_of_check hoctal
    rw [readTable_fileInfoCWrite hgood hnodup (by decide)]
    decide

end Table

end Mbtk.AtGenerator
