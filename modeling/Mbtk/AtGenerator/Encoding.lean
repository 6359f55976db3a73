import Mbtk.AtGenerator.Files

namespace Mbtk.AtGenerator

open Lib.CInit

section Encoding

def Param.decl (name : Text) (k : ℕ) : Param → Decl
  | .numeric ranges => ⟨NUMERIC_T, numericIdent name k, ranges.map pairItem⟩
  | .string maxLen => ⟨STRING_T, stringIdent name k, [.list [.int maxLen, .name "NULL".toList]]⟩

def Param.decls (name : Text) (k : ℕ) : List Param → List Decl
  | [] => []
  | param :: params => param.decl name k :: Param.decls name (k + 1) params

def Param.info (name : Text) (k : ℕ) : Param → Init
  | .numeric ranges =>
    .list [.int 1, .int ranges.length,
      .field ["param_info".toList, "num_array_ptr".toList] (numericIdent name k)]
  | .string _ =>
    .list [.int 2, .int 1,
      .field ["param_info".toList, "str_array_ptr".toList] (stringIdent name k)]

def Param.infos (name : Text) (k : ℕ) : List Param → List Init
  | [] => []
  | param :: params => param.info name k :: Param.infos name (k + 1) params

def Entry.ident (entry : Entry) : Text := atName [entry.name]

def Entry.nameDecl (entry : Entry) : Decl :=
  ⟨STRING_T, nameIdent entry.ident, [.list [.int entry.nameLen, .string entry.name]]⟩

def Entry.infoDecl (entry : Entry) : Decl :=
  ⟨PARAM_INFO_T, infoIdent entry.ident, Param.infos entry.ident 1 entry.params⟩

def Entry.decls (entry : Entry) : List Decl :=
  entry.nameDecl :: (Param.decls entry.ident 1 entry.params ++ [entry.infoDecl])

def Entry.init (entry : Entry) : Init :=
  .list [.name ("MBTK_AT_CMD_".toList ++ entry.ident), .int entry.type,
    .name (nameIdent entry.ident), .int entry.paramCount, .name (infoIdent entry.ident),
    .name ("mbtk_at_handle_".toList ++ entry.ident)]

def tablesDecl (entries : List Entry) : Decl := ⟨INFO_T, tablesIdent, entries.map Entry.init⟩

def declsOf (entries : List Entry) : List Decl :=
  (entries.map Entry.decls).flatten ++ [tablesDecl entries]

/-- The text in front of the name of the command in the identifier of a parameter. -/
def Param.pre : Param → Text
  | .numeric _ => "mbtkat_param_numeric_".toList
  | .string _ => "mbtkat_param_string_".toList

end Encoding

variable {name pre suffix : Text} {k : ℕ} {entries : List Entry} {entry : Entry}
  {decls : List Decl} {decl : Decl} {params : List Param}

section Identifiers

/-- A name of a command, as it stands in identifiers. -/
structure Ident (name : Text) : Prop where
  first : ∃ c rest, name = c :: rest ∧ c.isUpper
  plain : ∀ c ∈ name, c ≠ '_'

def owner (ident : Text) : Text := (ident.dropWhile fun c => !c.isUpper).takeWhile (· ≠ '_')
def index (ident : Text) : Text := (ident.dropWhile fun c => !c.isUpper).dropWhile (· ≠ '_')

theorem dropWhile_pre (hname : Ident name) (hpre : pre.all fun c => !c.isUpper) :
    (pre ++ (name ++ suffix)).dropWhile (fun c => !c.isUpper) = name ++ suffix := by
  obtain ⟨c, rest, rfl, hupper⟩ := hname.first
  rw [List.dropWhile_append_of_pos (List.all_eq_true.mp hpre), List.cons_append]
  exact List.dropWhile_cons_of_neg (by simp [hupper])

theorem owner_ident (hname : Ident name) (hpre : pre.all fun c => !c.isUpper)
    (hsuffix : ∀ c ∈ suffix.head?, c = '_') : owner (pre ++ (name ++ suffix)) = name := by
  unfold owner
  rw [dropWhile_pre hname hpre,
    List.takeWhile_append_of_pos fun c hc => decide_eq_true (hname.plain c hc)]
  cases suffix with
  | nil => exact List.append_nil _
  | cons c suffix =>
    rw [hsuffix c rfl]
    exact List.append_nil _

theorem index_ident (hname : Ident name) (hpre : pre.all fun c => !c.isUpper)
    (hsuffix : ∀ c ∈ suffix.head?, c = '_') : index (pre ++ (name ++ suffix)) = suffix := by
  unfold index
  rw [dropWhile_pre hname hpre,
    List.dropWhile_append_of_pos fun c hc => decide_eq_true (hname.plain c hc)]
  cases suffix with
  | nil => rfl
  | cons c suffix =>
    rw [hsuffix c rfl]
    rfl

theorem nameIdent_eq (name : Text) :
    nameIdent name = "mbtkat_cmd_name_".toList ++ (name ++ []) := by
  rw [List.append_nil]
  rfl

theorem infoIdent_eq (name : Text) :
    infoIdent name = "mbtkat_param_info_".toList ++ (name ++ []) := by
  rw [List.append_nil]
  rfl

theorem pre_all (param : Param) : param.pre.all fun c => !c.isUpper := by
  cases param <;> rfl

theorem param_name_eq (param : Param) (name : Text) (k : ℕ) :
    (param.decl name k).name = param.pre ++ (name ++ '_' :: decimal k) := by
  cases param with
  | numeric ranges =>
    change "mbtkat_param_numeric_".toList ++ name ++ "_".toList ++ decimal k = _
    rw [List.append_assoc, List.append_assoc]
    rfl
  | string maxLen =>
    change "mbtkat_param_string_".toList ++ name ++ "_".toList ++ decimal k = _
    rw [List.append_assoc, List.append_assoc]
    rfl

theorem owner_param (hname : Ident name) (param : Param) (k : ℕ) :
    owner (param.decl name k).name = name := by
  rw [param_name_eq]
  exact owner_ident hname (pre_all param) fun c hc => (Option.some.inj hc).symm

theorem index_param (hname : Ident name) (param : Param) (k : ℕ) :
    index (param.decl name k).name = '_' :: decimal k := by
  rw [param_name_eq]
  exact index_ident hname (pre_all param) fun c hc => (Option.some.inj hc).symm

theorem mem_paramDecls (h : decl ∈ Param.decls name k params) :
    ∃ param j, k ≤ j ∧ decl = Param.decl name j param := by
  induction params generalizing k with
  | nil => cases h
  | cons param params ih =>
    rcases List.mem_cons.mp h with rfl | h
    · exact ⟨param, k, Nat.le_refl _, rfl⟩
    · obtain ⟨param', j, hj, rfl⟩ := ih h
      exact ⟨param', j, by omega, rfl⟩

theorem decimal_inj {j : ℕ} (h : decimal k = decimal j) : k = j := by
  have := congrArg (Nat.ofDigitChars 10 · 0) h
  simpa [decimal, Nat.ofDigitChars_ten_toDigits] using this

theorem paramDecls_nodup (hname : Ident name) :
    ((Param.decls name k params).map Decl.name).Nodup := by
  induction params generalizing k with
  | nil => exact List.nodup_nil
  | cons param params ih =>
    refine List.nodup_cons.mpr ⟨fun hmem => ?_, ih⟩
    obtain ⟨decl, hdecl, heq⟩ := List.mem_map.mp hmem
    obtain ⟨param', j, hj, rfl⟩ := mem_paramDecls hdecl
    have hindex := congrArg index heq
    rw [index_param hname, index_param hname] at hindex
    have := decimal_inj (List.cons.inj hindex).2
    omega

theorem owner_decls (hident : Ident entry.ident) (h : decl ∈ entry.decls) :
    owner decl.name = entry.ident := by
  rcases List.mem_cons.mp h with rfl | h
  · change owner (nameIdent _) = _
    rw [nameIdent_eq]
    exact owner_ident hident (by decide) fun c hc => by cases hc
  · rcases List.mem_append.mp h with h | h
    · obtain ⟨param, j, -, rfl⟩ := mem_paramDecls h
      exact owner_param hident param j
    · rw [List.mem_singleton.mp h]
      change owner (infoIdent _) = _
      rw [infoIdent_eq]
      exact owner_ident hident (by decide) fun c hc => by cases hc

theorem decls_nodup (hident : Ident entry.ident) : (entry.decls.map Decl.name).Nodup := by
  have hparam {ident : Text} (hindex : index ident = [])
      (h : ident ∈ (Param.decls entry.ident 1 entry.params).map Decl.name) : False := by
    obtain ⟨decl, hdecl, rfl⟩ := List.mem_map.mp h
    obtain ⟨param, j, -, rfl⟩ := mem_paramDecls hdecl
    rw [index_param hident] at hindex
    cases hindex
  have hnameIndex : index (nameIdent entry.ident) = [] := by
    rw [nameIdent_eq]
    exact index_ident hident (by decide) fun c hc => by cases hc
  have hinfoIndex : index (infoIdent entry.ident) = [] := by
    rw [infoIdent_eq]
    exact index_ident hident (by decide) fun c hc => by cases hc
  unfold Entry.decls
  rw [List.map_cons, List.map_append]
  refine List.nodup_cons.mpr ⟨fun hmem => ?_, List.nodup_append.mpr
    ⟨paramDecls_nodup hident, List.nodup_singleton _, ?_⟩⟩
  · rcases List.mem_append.mp hmem with hmem | hmem
    · exact hparam hnameIndex hmem
    · have heq := List.mem_singleton.mp hmem
      have := congrArg (List.getD · 7 ' ') heq
      cases this
  · rintro ident hident _ hinfo rfl
    rw [List.mem_singleton.mp hinfo] at hident
    exact hparam hinfoIndex hident

theorem declsOf_nodup (hident : ∀ entry ∈ entries, Ident entry.ident)
    (hnodup : (entries.map Entry.ident).Nodup) : ((declsOf entries).map Decl.name).Nodup := by
  unfold declsOf
  rw [List.map_append, List.map_flatten, List.map_map]
  refine List.nodup_append.mpr ⟨List.nodup_flatten.mpr ⟨?_, ?_⟩, List.nodup_singleton _, ?_⟩
  · intro names hnames
    obtain ⟨entry, hentry, rfl⟩ := List.mem_map.mp hnames
    exact decls_nodup (hident entry hentry)
  · rw [List.pairwise_map]
    refine ((List.pairwise_map.mp hnodup).imp_of_mem ?_)
    intro a b ha hb hne name hmem hmem'
    obtain ⟨decl, hdecl, rfl⟩ := List.mem_map.mp hmem
    obtain ⟨decl', hdecl', heq⟩ := List.mem_map.mp hmem'
    have := congrArg owner heq
    rw [owner_decls (hident a ha) hdecl, owner_decls (hident b hb) hdecl'] at this
    exact hne this.symm
  · intro name hname other htables hsame
    obtain ⟨names, hnames, hmem⟩ := List.mem_flatten.mp hname
    obtain ⟨entry, hentry, rfl⟩ := List.mem_map.mp hnames
    obtain ⟨decl, hdecl, heq⟩ := List.mem_map.mp hmem
    have hempty : owner tablesIdent = [] := by decide
    have htables : other = tablesIdent := List.mem_singleton.mp htables
    rw [← htables, ← hsame, ← heq, owner_decls (hident entry hentry) hdecl] at hempty
    obtain ⟨c, rest, hfirst, -⟩ := (hident entry hentry).first
    rw [hempty] at hfirst
    cases hfirst

end Identifiers

section Decoding

theorem find_of_mem (hnodup : (decls.map Decl.name).Nodup) (h : decl ∈ decls) :
    decls.find? (·.name = decl.name) = some decl := by
  induction decls with
  | nil => cases h
  | cons first decls ih =>
    obtain ⟨hfirst, hnodup⟩ := List.nodup_cons.mp hnodup
    rcases List.mem_cons.mp h with rfl | h
    · exact List.find?_cons_of_pos (decide_eq_true rfl)
    · rw [List.find?_cons_of_neg]
      · exact ih hnodup h
      · exact fun heq => hfirst (of_decide_eq_true heq ▸ List.mem_map_of_mem h)

theorem lookup_of_mem (hnodup : (decls.map Decl.name).Nodup) (h : decl ∈ decls) :
    lookup decls decl.type decl.name = some decl.items := by
  unfold lookup
  rw [find_of_mem hnodup h]
  exact if_pos rfl

theorem mapM_decodeRange (ranges : List (ℤ × ℤ)) :
    (ranges.map pairItem).mapM decodeRange = some ranges := by
  induction ranges with
  | nil => rfl
  | cons r ranges ih =>
    rw [List.map_cons, List.mapM_cons, ih]
    rfl

theorem decodeParam_info {param : Param} (hnodup : (decls.map Decl.name).Nodup)
    (h : param.decl name k ∈ decls) : decodeParam decls (param.info name k) = some param := by
  have hlookup := lookup_of_mem hnodup h
  cases param with
  | numeric ranges =>
    change (lookup decls NUMERIC_T (numericIdent name k)).bind (decodeNumeric ranges.length) = _
    rw [show lookup decls NUMERIC_T (numericIdent name k) = some (ranges.map pairItem) from hlookup]
    unfold decodeNumeric
    rw [Option.bind_some, mapM_decodeRange]
    exact if_pos rfl
  | string maxLen =>
    change (lookup decls STRING_T (stringIdent name k)).bind decodeString = _
    rw [show lookup decls STRING_T (stringIdent name k) =
      some [.list [.int maxLen, .name "NULL".toList]] from hlookup]
    rfl

theorem mapM_decodeParam (hnodup : (decls.map Decl.name).Nodup)
    (h : ∀ decl ∈ Param.decls name k params, decl ∈ decls) :
    (Param.infos name k params).mapM (decodeParam decls) = some params := by
  induction params generalizing k with
  | nil => rfl
  | cons param params ih =>
    rw [Param.infos, List.mapM_cons, decodeParam_info hnodup (h _ List.mem_cons_self),
      ih fun decl hdecl => h decl (List.mem_cons_of_mem _ hdecl)]
    rfl

theorem decodeEntry_init (hnodup : (decls.map Decl.name).Nodup)
    (h : ∀ decl ∈ entry.decls, decl ∈ decls) : decodeEntry decls entry.init = some entry := by
  have hname := lookup_of_mem hnodup (h entry.nameDecl List.mem_cons_self)
  have hinfo := lookup_of_mem hnodup (h entry.infoDecl
    (List.mem_cons_of_mem _ (List.mem_append_right _ List.mem_cons_self)))
  have hparams : (Param.infos entry.ident 1 entry.params).mapM (decodeParam decls) =
      some entry.params :=
    mapM_decodeParam hnodup fun decl hdecl =>
      h decl (List.mem_cons_of_mem _ (List.mem_append_left _ hdecl))
  change ((lookup decls STRING_T (nameIdent entry.ident)).bind decodeName).bind _ = _
  rw [show lookup decls STRING_T (nameIdent entry.ident) = _ from hname]
  change (lookup decls PARAM_INFO_T (infoIdent entry.ident)).bind _ = _
  rw [show lookup decls PARAM_INFO_T (infoIdent entry.ident) = _ from hinfo]
  change ((Param.infos entry.ident 1 entry.params).mapM (decodeParam decls)).bind _ = _
  rw [hparams]
  rfl

theorem decode_declsOf (hident : ∀ entry ∈ entries, Ident entry.ident)
    (hnodup : (entries.map Entry.ident).Nodup) : decode (declsOf entries) = some entries := by
  have hdecls := declsOf_nodup hident hnodup
  have hlookup := lookup_of_mem hdecls
    (List.mem_append_right _ (List.mem_singleton_self (tablesDecl entries)))
  have hentries (part : List Entry) (hpart : ∀ entry ∈ part, entry ∈ entries) :
      (part.map Entry.init).mapM (decodeEntry (declsOf entries)) = some part := by
    induction part with
    | nil => rfl
    | cons entry part ih =>
      have hentry : decodeEntry (declsOf entries) entry.init = some entry :=
        decodeEntry_init hdecls fun decl hdecl => List.mem_append_left _
          (List.mem_flatten_of_mem (List.mem_map_of_mem (hpart entry List.mem_cons_self)) hdecl)
      rw [List.map_cons, List.mapM_cons, hentry,
        ih fun other hother => hpart other (List.mem_cons_of_mem _ hother)]
      rfl
  unfold decode
  rw [show lookup (declsOf entries) "MBTKAT_INFO_T".toList "mbtkat_info_tables".toList =
    some (entries.map Entry.init) from hlookup]
  change (if _ then _ else _) = _
  rw [if_pos hdecls]
  exact hentries entries fun entry hentry => hentry

end Decoding

end Mbtk.AtGenerator
