import Mbtk.AtGenerator.Pieces

namespace Mbtk.AtGenerator

open Lib.CInit

section Defined

variable {name ident : Text} {line : Row} {lines table : List Row} {args : List Text} {k : ℕ}

def skeleton (line : Row) : Entry :=
  ⟨line.getD 0 [], 0, 0, 0,
    (line.drop 2).map fun arg => if isString arg then .string 0 else .numeric []⟩

section Lists

variable {s ident : Text} {pieces : List Piece}

@[simp] theorem defined_nil : defined [] = [] := rfl

@[simp] theorem defined_text : defined (.text s :: pieces) = defined pieces := rfl

@[simp] theorem defined_refers : defined (.refers ident :: pieces) = defined pieces := rfl

@[simp] theorem defined_defines : defined (.defines ident :: pieces) = ident :: defined pieces :=
  rfl

@[simp] theorem referred_nil : referred [] = [] := rfl

@[simp] theorem referred_text : referred (.text s :: pieces) = referred pieces := rfl

@[simp] theorem referred_defines : referred (.defines ident :: pieces) = referred pieces := rfl

@[simp] theorem referred_refers : referred (.refers ident :: pieces) = ident :: referred pieces :=
  rfl

end Lists

theorem defined_append (pieces others : List Piece) :
    defined (pieces ++ others) = defined pieces ++ defined others := List.filterMap_append

theorem defined_flatMap (f : Row → List Piece) (table : List Row) :
    defined (table.flatMap f) = table.flatMap fun line => defined (f line) :=
  List.filterMap_flatMap

theorem referred_append (pieces others : List Piece) :
    referred (pieces ++ others) = referred pieces ++ referred others := List.filterMap_append

theorem referred_flatMap (f : Row → List Piece) (table : List Row) :
    referred (table.flatMap f) = table.flatMap fun line => referred (f line) :=
  List.filterMap_flatMap

theorem defined_paramPieces (name : Text) (k : ℕ) (arg : Text) : defined (paramPieces name k arg) =
    [((if isString arg then .string 0 else .numeric [] : Param).decl name k).name] := by
  unfold paramPieces
  split_ifs <;> rfl

theorem defined_paramsPieces (name : Text) (k : ℕ) (args : List Text) :
    defined (paramsPieces name k args) = (Param.decls name k (args.map fun arg =>
      if isString arg then .string 0 else .numeric [])).map Decl.name := by
  induction args generalizing k with
  | nil => rfl
  | cons arg args ih =>
    rw [paramsPieces, defined_append, defined_paramPieces, ih]
    rfl

theorem defined_infosPieces (name : Text) (k : ℕ) (args : List Text) :
    defined (infosPieces name k args) = [] := by
  induction args generalizing k with
  | nil => rfl
  | cons arg args ih =>
    rw [infosPieces, defined_append, ih, List.append_nil, infoPieces]
    split_ifs <;> rfl

theorem defined_rowPieces (line : Row) :
    defined (rowPieces line) = (skeleton line).decls.map Decl.name := by
  rw [rowPieces, defined_append, defined_append, defined_paramsPieces, defined_text,
    defined_defines, defined_text, defined_append, defined_infosPieces]
  unfold Entry.decls
  rw [List.map_cons, List.map_append]
  rfl

theorem defined_entriesPieces (table : List Row) : defined (entriesPieces table).flatten = [] := by
  induction table with
  | nil => rfl
  | cons line lines ih =>
    rw [entriesPieces, List.flatten_cons, defined_append, ih]
    rfl

theorem defined_sourcePieces (table : List Row) :
    defined (sourcePieces table) = (declsOf (table.map skeleton)).map Decl.name := by
  rw [sourcePieces, defined_text, defined_append, defined_flatMap,
    List.flatMap_congr fun line _ => defined_rowPieces line, defined_text, defined_defines,
    defined_text, defined_append, defined_entriesPieces]
  unfold declsOf
  rw [List.map_append, List.map_flatten, List.map_map, List.map_map]
  rfl

theorem defined_enumPieces (table : List Row) : defined (enumPieces table) =
    (table.map fun line => cmdIdent (atName line)) ++ [cmdIdent "NUM_MAX".toList] := by
  rw [enumPieces, defined_append, defined_flatMap, List.map_eq_flatMap]
  rfl

theorem defined_headerPieces (table : List Row) : defined (headerPieces table) =
    defined (enumPieces table) ++ table.map fun line => handleIdent (atName line) := by
  rw [headerPieces, defined_text, defined_append, defined_text, defined_append, defined_flatMap,
    List.map_eq_flatMap]
  exact congrArg _ (List.append_nil _)

end Defined

section Distinct

variable {ident name : Text} {line : Row} {table : List Row}

theorem cmdIdent_injective : Function.Injective cmdIdent := List.append_right_injective _

theorem handleIdent_injective : Function.Injective handleIdent := List.append_right_injective _

theorem cmdIdent_first (name : Text) : (cmdIdent name).head? = some 'M' := rfl

theorem handleIdent_fifth (name : Text) : (handleIdent name)[4]? = some '_' := rfl

theorem cmdIdent_fifth (name : Text) : (cmdIdent name)[4]? = some '_' := rfl

theorem declsOf_fifth {entries : List Entry} (h : ident ∈ (declsOf entries).map Decl.name) :
    ident[4]? = some 'a' := by
  obtain ⟨decl, hdecl, rfl⟩ := List.mem_map.mp h
  rcases List.mem_append.mp hdecl with hdecl | hdecl
  · obtain ⟨decls, hdecls, hdecl⟩ := List.mem_flatten.mp hdecl
    obtain ⟨entry, -, rfl⟩ := List.mem_map.mp hdecls
    rcases List.mem_cons.mp hdecl with rfl | hdecl
    · rfl
    rcases List.mem_append.mp hdecl with hdecl | hdecl
    · obtain ⟨param, j, -, rfl⟩ := mem_paramDecls hdecl
      cases param <;> rfl
    · rw [List.mem_singleton.mp hdecl]
      rfl
  · rw [List.mem_singleton.mp hdecl]
    rfl

theorem map_names_nodup {f : Text → Text} (hf : Function.Injective f)
    (hnodup : (table.map atName).Nodup) : (table.map fun line => f (atName line)).Nodup := by
  have h := hnodup.map hf
  rwa [List.map_map] at h

theorem enumPieces_nodup (hgood : ∀ line ∈ table, GoodRow line)
    (hnodup : (table.map atName).Nodup) : (defined (enumPieces table)).Nodup := by
  rw [defined_enumPieces]
  refine List.nodup_append.mpr ⟨map_names_nodup cmdIdent_injective hnodup,
    List.nodup_singleton _, ?_⟩
  rintro ident hident other hother rfl
  obtain ⟨line, hline, heq⟩ := List.mem_map.mp hident
  have hmax := cmdIdent_injective (heq.trans (List.mem_singleton.mp hother))
  -- No name has the underscore of NUM_MAX.
  have hplain := (ident_of_good (hgood line hline)).plain '_' (by rw [hmax]; decide)
  exact hplain rfl

theorem source_nodup (hgood : ∀ line ∈ table, GoodRow line)
    (hnodup : (table.map atName).Nodup) : (defined (sourcePieces table)).Nodup := by
  rw [defined_sourcePieces]
  refine declsOf_nodup ?_ ?_
  · intro entry hentry
    obtain ⟨line, hline, rfl⟩ := List.mem_map.mp hentry
    have hident : Ident (atName line) := ident_of_good (hgood line hline)
    exact hident
  · rw [List.map_map]
    exact hnodup

theorem header_fifth (h : ident ∈ defined (headerPieces table)) : ident[4]? = some '_' := by
  rw [defined_headerPieces, defined_enumPieces] at h
  rcases List.mem_append.mp h with h | h
  · rcases List.mem_append.mp h with h | h
    · obtain ⟨line, -, rfl⟩ := List.mem_map.mp h
      exact cmdIdent_fifth _
    · rw [List.mem_singleton.mp h]
      exact cmdIdent_fifth _
  · obtain ⟨line, -, rfl⟩ := List.mem_map.mp h
    exact handleIdent_fifth _

theorem enumPieces_first (h : ident ∈ defined (enumPieces table)) : ident.head? = some 'M' := by
  rw [defined_enumPieces] at h
  rcases List.mem_append.mp h with h | h
  · obtain ⟨line, -, rfl⟩ := List.mem_map.mp h
    exact cmdIdent_first _
  · rw [List.mem_singleton.mp h]
    exact cmdIdent_first _

theorem header_nodup (hgood : ∀ line ∈ table, GoodRow line)
    (hnodup : (table.map atName).Nodup) : (defined (headerPieces table)).Nodup := by
  rw [defined_headerPieces]
  refine List.nodup_append.mpr ⟨enumPieces_nodup hgood hnodup,
    map_names_nodup handleIdent_injective hnodup, ?_⟩
  rintro ident hident other hother rfl
  obtain ⟨line, -, rfl⟩ := List.mem_map.mp hother
  have hfirst : (handleIdent (atName line)).head? = some 'm' := rfl
  rw [enumPieces_first hident] at hfirst
  cases hfirst

theorem files_nodup (hgood : ∀ line ∈ table, GoodRow line) (hnodup : (table.map atName).Nodup) :
    (defined (headerPieces table ++ sourcePieces table)).Nodup := by
  rw [defined_append]
  refine List.nodup_append.mpr ⟨header_nodup hgood hnodup, source_nodup hgood hnodup, ?_⟩
  rintro ident hident other hother rfl
  rw [defined_sourcePieces] at hother
  have hfifth := declsOf_fifth hother
  rw [header_fifth hident] at hfifth
  cases hfifth

end Distinct

section Referred

variable {ident name : Text} {line : Row} {table : List Row}

theorem referred_paramsPieces (name : Text) (k : ℕ) (args : List Text) :
    referred (paramsPieces name k args) = [] := by
  induction args generalizing k with
  | nil => rfl
  | cons arg args ih =>
    rw [paramsPieces, referred_append, ih, List.append_nil, paramPieces]
    split_ifs <;> rfl

theorem referred_infosPieces (name : Text) (k : ℕ) (args : List Text) :
    referred (infosPieces name k args) = defined (paramsPieces name k args) := by
  induction args generalizing k with
  | nil => rfl
  | cons arg args ih =>
    rw [infosPieces, paramsPieces, referred_append, defined_append, ih, infoPieces, paramPieces]
    split_ifs <;> rfl

theorem referred_rowPieces (line : Row) :
    referred (rowPieces line) = defined (paramsPieces (atName line) 1 (line.drop 2)) := by
  rw [rowPieces, referred_append, referred_append, referred_paramsPieces, referred_text,
    referred_defines, referred_text, referred_append, referred_infosPieces]
  exact List.append_nil _

theorem referred_entryPieces (line : Row) (isLast : Bool) : referred (entryPieces line isLast) =
    [cmdIdent (atName line), nameIdent (atName line), infoIdent (atName line),
      handleIdent (atName line)] := rfl

theorem mem_referred_entries (h : ident ∈ referred (entriesPieces table).flatten) :
    ∃ line ∈ table, ident ∈ referred (entryPieces line false) := by
  induction table with
  | nil => cases h
  | cons line lines ih =>
    rw [entriesPieces, List.flatten_cons, referred_append] at h
    rcases List.mem_append.mp h with h | h
    · exact ⟨line, List.mem_cons_self, h⟩
    · obtain ⟨other, hother, hident⟩ := ih h
      exact ⟨other, List.mem_cons_of_mem _ hother, hident⟩

theorem mem_defined_of_row (hline : line ∈ table) (h : ident ∈ defined (rowPieces line)) :
    ident ∈ defined (headerPieces table ++ sourcePieces table) := by
  rw [defined_append, sourcePieces, defined_text, defined_append, defined_flatMap]
  refine List.mem_append_right _ (List.mem_append_left _ ?_)
  exact List.mem_flatMap.mpr ⟨line, hline, h⟩

theorem mem_defined_of_header (h : ident ∈ defined (headerPieces table)) :
    ident ∈ defined (headerPieces table ++ sourcePieces table) := by
  rw [defined_append]
  exact List.mem_append_left _ h

theorem mem_header_of_cmd (hline : line ∈ table) :
    cmdIdent (atName line) ∈ defined (headerPieces table) := by
  rw [defined_headerPieces, defined_enumPieces]
  refine List.mem_append_left _ (List.mem_append_left _ ?_)
  exact List.mem_map_of_mem (f := fun line => cmdIdent (atName line)) hline

theorem mem_header_of_handle (hline : line ∈ table) :
    handleIdent (atName line) ∈ defined (headerPieces table) := by
  rw [defined_headerPieces]
  refine List.mem_append_right _ ?_
  exact List.mem_map_of_mem (f := fun line => handleIdent (atName line)) hline

theorem nameIdent_mem (line : Row) : nameIdent (atName line) ∈ defined (rowPieces line) :=
  List.mem_cons_self

theorem infoIdent_mem (line : Row) : infoIdent (atName line) ∈ defined (rowPieces line) := by
  rw [rowPieces, defined_append, defined_append, defined_text, defined_defines]
  exact List.mem_append_right _ (List.mem_append_right _ List.mem_cons_self)

theorem referred_headerPieces (table : List Row) : referred (headerPieces table) = [] := by
  have henum : referred (table.flatMap enumPiece) = [] := by
    rw [referred_flatMap]
    exact List.flatMap_eq_nil_iff.mpr fun line _ => rfl
  have hhandle : referred (table.flatMap handlePiece) = [] := by
    rw [referred_flatMap]
    exact List.flatMap_eq_nil_iff.mpr fun line _ => rfl
  rw [headerPieces, enumPieces, referred_text, referred_append, referred_append, henum,
    referred_text, referred_text, referred_append, hhandle]
  rfl

theorem referred_sourcePieces (table : List Row) : referred (sourcePieces table) =
    (table.flatMap fun line => defined (paramsPieces (atName line) 1 (line.drop 2))) ++
      referred (entriesPieces table).flatten := by
  rw [sourcePieces, referred_text, referred_append, referred_flatMap,
    List.flatMap_congr fun line _ => referred_rowPieces line, referred_text, referred_defines,
    referred_text, referred_append]
  exact congrArg _ (List.append_nil _)

theorem mem_defined (h : ident ∈ referred (headerPieces table ++ sourcePieces table)) :
    ident ∈ defined (headerPieces table ++ sourcePieces table) := by
  rw [referred_append, referred_headerPieces, List.nil_append, referred_sourcePieces] at h
  rcases List.mem_append.mp h with h | h
  · obtain ⟨line, hline, hident⟩ := List.mem_flatMap.mp h
    refine mem_defined_of_row hline ?_
    rw [rowPieces, defined_append, defined_append]
    exact List.mem_append_right _ (List.mem_append_left _ hident)
  · obtain ⟨line, hline, hident⟩ := mem_referred_entries h
    rw [referred_entryPieces] at hident
    simp only [List.mem_cons, List.not_mem_nil, or_false] at hident
    rcases hident with rfl | rfl | rfl | rfl
    · exact mem_defined_of_header (mem_header_of_cmd hline)
    · exact mem_defined_of_row hline (nameIdent_mem line)
    · exact mem_defined_of_row hline (infoIdent_mem line)
    · exact mem_defined_of_header (mem_header_of_handle hline)

end Referred

section Reader

variable {name : Text} {line : Row} {table : List Row} {args : List Text} {decls : List Decl}

mutual

def names : Init → List Text
  | .int _ | .string _ => []
  | .name text | .field _ text => [text]
  | .list items => namesOf items

def namesOf : List Init → List Text
  | [] => []
  | item :: items => names item ++ namesOf items

end

/-- The identifiers that an array of parameters or the table of the commands refers to. -/
def refsOf (decl : Decl) : List Text :=
  if decl.type = PARAM_INFO_T ∨ decl.type = INFO_T then namesOf decl.items else []

theorem refsOf_string (name : Text) (items : List Init) : refsOf ⟨STRING_T, name, items⟩ = [] :=
  if_neg (by decide : ¬(STRING_T = PARAM_INFO_T ∨ STRING_T = INFO_T))

theorem refsOf_numeric (name : Text) (items : List Init) : refsOf ⟨NUMERIC_T, name, items⟩ = [] :=
  if_neg (by decide : ¬(NUMERIC_T = PARAM_INFO_T ∨ NUMERIC_T = INFO_T))

theorem refsOf_info (name : Text) (items : List Init) :
    refsOf ⟨PARAM_INFO_T, name, items⟩ = namesOf items := if_pos (.inl rfl)

theorem refsOf_tables (name : Text) (items : List Init) :
    refsOf ⟨INFO_T, name, items⟩ = namesOf items := if_pos (.inr rfl)

theorem namesOf_infoItems (name : Text) (k : ℕ) (args : List Text) :
    namesOf (infoItems name k args) = referred (infosPieces name k args) := by
  induction args generalizing k with
  | nil => rfl
  | cons arg args ih =>
    rw [infoItems, namesOf, ih, infosPieces, referred_append, infoItem, infoPieces]
    split_ifs <;> rfl

theorem reads_param {arg : Text} {k : ℕ} {decl : Decl} (h : paramDecl name k arg = some decl) :
    [decl.name] = defined (paramPieces name k arg) ∧ refsOf decl = [] := by
  unfold paramDecl at h
  unfold paramPieces
  split_ifs at h ⊢
  · obtain ⟨n, -, rfl⟩ := Option.map_eq_some_iff.mp h
    exact ⟨rfl, refsOf_string _ _⟩
  · obtain ⟨items, -, rfl⟩ := Option.map_eq_some_iff.mp h
    exact ⟨rfl, refsOf_numeric _ _⟩

theorem reads_params {k : ℕ} (h : paramDecls name k args = some decls) :
    decls.map Decl.name = defined (paramsPieces name k args) ∧ decls.flatMap refsOf = [] := by
  induction args generalizing k decls with
  | nil =>
    cases h
    exact ⟨rfl, rfl⟩
  | cons arg args ih =>
    obtain ⟨decl, hdecl, h⟩ := Option.bind_eq_some_iff.mp h
    obtain ⟨behind, hbehind, h⟩ := Option.bind_eq_some_iff.mp h
    cases h
    obtain ⟨hname, hrefs⟩ := reads_param hdecl
    obtain ⟨hnames, hnone⟩ := ih hbehind
    rw [paramsPieces, defined_append, ← hname, ← hnames, List.flatMap_cons, hrefs, hnone]
    exact ⟨rfl, rfl⟩

theorem reads_row (h : rowDecls line = some decls) :
    decls.map Decl.name = defined (rowPieces line) ∧
      decls.flatMap refsOf = referred (rowPieces line) := by
  obtain ⟨params, hparams, rfl⟩ := Option.map_eq_some_iff.mp h
  obtain ⟨hnames, hnone⟩ := reads_params hparams
  constructor
  · rw [rowPieces, defined_append, defined_append, ← hnames, defined_text, defined_defines,
      defined_text, defined_append, defined_infosPieces, List.map_cons, List.map_append]
    rfl
  · rw [referred_rowPieces, ← referred_infosPieces, List.flatMap_cons, List.flatMap_append, hnone,
      nameDecl, refsOf_string, List.flatMap_singleton, infoDecl, refsOf_info, namesOf_infoItems]
    rfl

theorem reads_rows {rows : List (List Decl)} (h : table.mapM rowDecls = some rows) :
    rows.flatten.map Decl.name = defined (table.flatMap rowPieces) ∧
      rows.flatten.flatMap refsOf = referred (table.flatMap rowPieces) := by
  induction table generalizing rows with
  | nil =>
    cases h
    exact ⟨rfl, rfl⟩
  | cons line lines ih =>
    rw [List.mapM_cons] at h
    obtain ⟨row, hrow, h⟩ := Option.bind_eq_some_iff.mp h
    obtain ⟨behind, hbehind, h⟩ := Option.bind_eq_some_iff.mp h
    cases h
    obtain ⟨hnames, hrefs⟩ := reads_row hrow
    obtain ⟨hrest, hothers⟩ := ih hbehind
    rw [List.flatten_cons, List.map_append, List.flatMap_append, hnames, hrefs, hrest, hothers,
      List.flatMap_cons, defined_append, referred_append]
    exact ⟨rfl, rfl⟩

theorem reads_entries {entries : List Init} (h : table.mapM entryItem = some entries) :
    namesOf entries = referred (entriesPieces table).flatten := by
  induction table generalizing entries with
  | nil =>
    cases h
    rfl
  | cons line lines ih =>
    rw [List.mapM_cons] at h
    obtain ⟨item, hitem, h⟩ := Option.bind_eq_some_iff.mp h
    obtain ⟨behind, hbehind, h⟩ := Option.bind_eq_some_iff.mp h
    cases h
    obtain ⟨type, -, rfl⟩ := Option.map_eq_some_iff.mp hitem
    rw [namesOf, ih hbehind, entriesPieces, List.flatten_cons, referred_append]
    rfl

theorem reads_source (h : fileDecls table = some decls) :
    decls.map Decl.name = defined (sourcePieces table) ∧
      decls.flatMap refsOf = referred (sourcePieces table) := by
  obtain ⟨rows, hrows, h⟩ := Option.bind_eq_some_iff.mp h
  obtain ⟨entries, hentries, h⟩ := Option.bind_eq_some_iff.mp h
  cases h
  obtain ⟨hnames, hrefs⟩ := reads_rows hrows
  constructor
  · rw [sourcePieces, defined_text, defined_append, defined_text, defined_defines, defined_text,
      defined_append, defined_entriesPieces, List.map_append, hnames]
    rfl
  · rw [sourcePieces, referred_text, referred_append, referred_text, referred_defines,
      referred_text, referred_append, List.flatMap_append, hrefs, List.flatMap_singleton,
      refsOf_tables, reads_entries hentries]
    exact congrArg _ (List.append_nil _).symm

end Reader

section Aligned

variable {table : List Row}

/-- The value of an enumerator: an enumeration without values counts from 0. -/
def enumValue (table : List Row) (ident : Text) : ℕ := (defined (enumPieces table)).idxOf ident

theorem length_entriesPieces (table : List Row) : (entriesPieces table).length = table.length := by
  induction table with
  | nil => rfl
  | cons line lines ih => rw [entriesPieces, List.length_cons, ih, List.length_cons]

theorem head_entriesPieces {i : ℕ} {pieces : List Piece}
    (h : (entriesPieces table)[i]? = some pieces) :
    ∃ line, table[i]? = some line ∧ (referred pieces).head? = some (cmdIdent (atName line)) := by
  induction table generalizing i with
  | nil => cases h
  | cons line lines ih =>
    cases i with
    | zero =>
      cases h
      exact ⟨line, rfl, rfl⟩
    | succ i => exact ih h

theorem enumValue_of_getElem {i : ℕ} {line : Row} (hgood : ∀ line ∈ table, GoodRow line)
    (hnodup : (table.map atName).Nodup) (h : table[i]? = some line) :
    enumValue table (cmdIdent (atName line)) = i := by
  have hmap : (table.map fun line => cmdIdent (atName line))[i]? =
      some (cmdIdent (atName line)) := by
    rw [List.getElem?_map, h]
    rfl
  have hget : (defined (enumPieces table))[i]? = some (cmdIdent (atName line)) := by
    rw [defined_enumPieces, List.getElem?_append_left (List.getElem?_eq_some_iff.mp hmap).1]
    exact hmap
  obtain ⟨hi, heq⟩ := List.getElem?_eq_some_iff.mp hget
  unfold enumValue
  rw [← heq]
  exact (enumPieces_nodup hgood hnodup).idxOf_getElem i hi

/-- The identifiers of the generated files do not clash and stay aligned. -/
structure NamesFit (table : List Row) : Prop where
  header : written (headerPieces table) = fileInfoHWrite table
  source : written (sourcePieces table) = fileInfoCWrite table
  declared : ∀ decls, read (fileInfoCWrite table) = some decls →
    decls.map Decl.name = defined (sourcePieces table) ∧
      decls.flatMap refsOf = referred (sourcePieces table)
  distinct : (defined (headerPieces table ++ sourcePieces table)).Nodup
  resolved : ∀ ident ∈ referred (headerPieces table ++ sourcePieces table),
    (defined (headerPieces table ++ sourcePieces table)).count ident = 1
  rows : (entriesPieces table).length = table.length
  aligned : ∀ i pieces, (entriesPieces table)[i]? = some pieces →
    ∃ ident ∈ defined (enumPieces table), (referred pieces).head? = some ident ∧
      enumValue table ident = i

theorem namesFit (h : atDefineCheck table = some true) : NamesFit table := by
  obtain ⟨hgood, hnodup⟩ := good_of_check h
  have hdistinct := files_nodup hgood hnodup
  refine ⟨written_headerPieces table, written_sourcePieces table, ?_, hdistinct, ?_,
    length_entriesPieces table, ?_⟩
  · intro decls hread
    rw [read_fileInfoCWrite hgood] at hread
    exact reads_source hread
  · intro ident hident
    exact List.count_eq_one_of_mem hdistinct (mem_defined hident)
  · intro i pieces hpieces
    obtain ⟨line, hline, hhead⟩ := head_entriesPieces hpieces
    refine ⟨_, ?_, hhead, enumValue_of_getElem hgood hnodup hline⟩
    rw [defined_enumPieces]
    exact List.mem_append_left _ (List.mem_map_of_mem
      (f := fun line => cmdIdent (atName line)) (List.mem_of_getElem? hline))

/-- Names that end in a digit, next to the indices of their parameters. -/
def digitsTable : List Row :=
  [["A1", "2", "(0-9)", "(s20)"].map String.toList, ["+A", "3", "(0 5)"].map String.toList]

theorem namesFit_digitsTable : NamesFit digitsTable := namesFit (by decide)

end Aligned

end Mbtk.AtGenerator
