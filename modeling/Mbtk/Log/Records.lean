import Mbtk.Lib.Resource
import Mbtk.Log.Logger

namespace Mbtk.Log

open Lib Sock

/-- What the callers have chosen: the levels that are printed, and the stream that they go to with
the path that it was opened with.  Without a choice the levels are those up to `LOG_I`. -/
structure Settings (φ : Type) where
  chosen : Bool
  levels : Set ℤ
  file : Option (φ × List UInt8)

namespace Settings

variable {φ : Type}

def start : Settings φ := ⟨false, ∅, none⟩

def used (a : Settings φ) : Settings φ :=
  if a.chosen then a else ⟨true, Set.Icc LOG_F LOG_I, none⟩

def levelsOf (level : ℤ) (onlyThisLevel : Bool) : Set ℤ :=
  if onlyThisLevel then {min level LOG_D} else Set.Icc LOG_F (min level LOG_D)

/-- What a call of `log_init` opens. -/
def opened (logPath : Option (List UInt8)) (fopen : Option φ) : Option (φ × List UInt8) :=
  logPath.bind fun path => fopen.map fun file => (file, path)

def next (a : Settings φ) : Call φ → Settings φ
  | .init level onlyThisLevel logPath fopen _ =>
    if level < LOG_F then { a with levels := ∅ }
    else
      ⟨true, levelsOf level onlyThisLevel, opened logPath fopen⟩
  | .message .. => a.used
  | .clear freopen =>
    { a with file := a.file.bind fun opened => freopen.map fun file => (file, opened.2) }

/-- The settings behind a run. -/
def after (past : List (Call φ × List (Effect φ))) : Settings φ :=
  past.foldl (fun a e => a.next e.1) start

@[simp] theorem after_nil : after ([] : List (Call φ × List (Effect φ))) = start := rfl

@[simp] theorem after_concat (past : List (Call φ × List (Effect φ)))
    (e : Call φ × List (Effect φ)) : after (past ++ [e]) = (after past).next e.1 := by
  simp [after]

end Settings

namespace Logger

variable {φ : Type} {s t : Logger φ} {a : Settings φ} {c : Call φ} {effects : List (Effect φ)}
  {level : ℤ} {onlyThisLevel : Bool} {logPath : Option (List UInt8)} {fopen : Option φ}
  {path time : List UInt8} {file : φ}

section Bits

theorem bitOn8_range : ∀ n ≤ 6, ∀ b < 31,
    bitOn8 ((List.range' 1 n).foldl setBit8 0) b = true ↔ 1 ≤ b ∧ b ≤ n := by decide

theorem bitOn8_only : ∀ n < 7, ∀ b < 31, bitOn8 (setBit8 0 n) b = true ↔ b = n := by decide

theorem bitOn8_zero : ∀ b < 31, bitOn8 0 b = false := by decide

end Bits

/-- What the variables are by the settings. -/
structure Shows (s : Logger φ) (a : Settings φ) : Prop where
  chosen : s.logInited = a.chosen
  levels : ∀ b < 31, bitOn8 s.logFlag b = true ↔ (b : ℤ) ∈ a.levels
  file : s.logFile = a.file.map Prod.fst
  unchosen : a.chosen = false → a.file = none
  named : ∀ file, s.logFile = some file → cString s.logFilePath ≠ []
  length_path : s.logFilePath.length = PATH_SIZE

theorem shows_start : Shows (start : Logger φ) .start where
  chosen := rfl
  levels := by
    intro b hb
    rw [show (start : Logger φ).logFlag = 0 from rfl, bitOn8_zero b hb]
    exact iff_of_false nofun (Set.notMem_empty _)
  file := rfl
  unchosen := fun _ => rfl
  named := nofun
  length_path := rfl

section Init

/-- What `log_file_path` holds once no file is open. -/
def left (s : Logger φ) : List UInt8 :=
  if s.logFile.isSome then List.replicate PATH_SIZE 0 else s.logFilePath

theorem closeFile_eq (hnamed : ∀ file, s.logFile = some file → cString s.logFilePath ≠ []) :
    s.closeFile = ({ s with logFile := none, logFilePath := s.left },
      s.logFile.toList.map .fclose) := by
  obtain ⟨flag, inited, file, path, level⟩ := s
  cases file with
  | none => rfl
  | some file =>
    rw [closeFile]
    dsimp only
    rw [if_pos (List.length_pos_iff.mpr (hnamed file rfl))]
    rfl

theorem logInit_of_lt (h : level < LOG_F) :
    s.logInit level onlyThisLevel logPath fopen time = some ({ s with logFlag := 0 }, []) := by
  have hnot : ¬ LOG_D < level := by
    rw [LOG_F] at h
    rw [LOG_D]
    omega
  rw [logInit, if_neg hnot, if_pos h]

/-- What `log_init` does with a level that there is. -/
structure Inits (s : Logger φ) (level : ℤ) (onlyThisLevel : Bool)
    (o : Option (φ × List UInt8)) (time : List UInt8) (t : Logger φ) (effects : List (Effect φ)) :
    Prop where
  logInited : t.logInited = true
  logFlag : t.logFlag =
    if onlyThisLevel then setBit8 0 (min level LOG_D).toNat
    else (List.range' 1 (min level LOG_D).toNat).foldl setBit8 0
  logFile : t.logFile = o.map Prod.fst
  logFilePath : t.logFilePath = o.elim s.left fun opened => opened.2 ++ s.left.drop opened.2.length
  length_lt : ∀ opened ∈ o, opened.2.length < PATH_SIZE
  effects_eq : effects = s.logFile.toList.map .fclose ++
    (o.toList.map fun opened => .fopen opened.2 opened.1) ++ t.logSection time

theorem inits_of_logInit (hnamed : ∀ file, s.logFile = some file → cString s.logFilePath ≠ [])
    (hlevel : LOG_F ≤ level)
    (h : s.logInit level onlyThisLevel logPath fopen time = some (t, effects)) :
    Inits s level onlyThisLevel (Settings.opened logPath fopen) time t effects := by
  have hmin : (if LOG_D < level then LOG_D else level) = min level LOG_D := by
    rw [min_comm, min_def_lt]
  have hlow : ¬ min level LOG_D < LOG_F := not_lt.mpr (le_min hlevel (by decide))
  rw [logInit, hmin] at h
  dsimp only at h
  rw [if_neg hlow, closeFile_eq (s := { s with logFlag := 0 }) hnamed] at h
  cases logPath with
  | none =>
    cases h
    exact ⟨rfl, rfl, rfl, rfl, nofun, by simp [Settings.opened]⟩
  | some path =>
    cases fopen with
    | none =>
      cases h
      exact ⟨rfl, rfl, rfl, rfl, nofun, by simp [Settings.opened]⟩
    | some file =>
      unfold openFile at h
      dsimp only at h
      by_cases hlen : path.length < PATH_SIZE
      · rw [if_pos hlen] at h
        cases h
        refine ⟨rfl, rfl, rfl, rfl, ?_, rfl⟩
        rintro opened ⟨⟩
        exact hlen
      · rw [if_neg hlen] at h
        cases h

end Init

section Steps

theorem cString_append {l m : List UInt8} (h : 0 ∉ l) : cString (l ++ m) = l ++ cString m := by
  rw [cString, List.takeWhile_append_of_pos fun c hc => ?_]
  · rfl
  · simpa using ne_of_mem_of_not_mem hc h

theorem length_left (h : s.logFilePath.length = PATH_SIZE) : s.left.length = PATH_SIZE := by
  unfold left
  split_ifs
  · exact List.length_replicate
  · exact h

theorem Inits.shows {o : Option (φ × List UInt8)} (h : Inits s level onlyThisLevel o time t effects)
    (hlevel : LOG_F ≤ level) (hpath : ∀ opened ∈ o, 0 ∉ opened.2 ∧ opened.2 ≠ [])
    (hlength : s.logFilePath.length = PATH_SIZE) :
    Shows t ⟨true, Settings.levelsOf level onlyThisLevel, o⟩ where
  chosen := h.logInited
  levels := by
    intro b hb
    have hle : min level LOG_D ≤ 6 := min_le_right _ _
    obtain ⟨n, hn⟩ := Int.eq_ofNat_of_zero_le
      (le_min (le_trans (by decide) hlevel) (by decide) : 0 ≤ min level LOG_D)
    rw [h.logFlag, Settings.levelsOf, hn, Int.toNat_natCast]
    rw [hn] at hle
    split_ifs
    · rw [bitOn8_only _ (by omega) b hb, Set.mem_singleton_iff, Nat.cast_inj]
    · rw [bitOn8_range _ (by omega) b hb, Set.mem_Icc, Nat.cast_le, LOG_F]
      exact and_congr_left' Nat.one_le_cast.symm
  file := h.logFile
  unchosen := nofun
  named := by
    intro file hfile
    rw [h.logFile] at hfile
    obtain ⟨opened, hopened, -⟩ := Option.map_eq_some_iff.mp hfile
    obtain ⟨hnul, hne⟩ := hpath opened hopened
    rw [h.logFilePath, hopened, Option.elim_some, cString_append hnul]
    exact List.append_ne_nil_of_left_ne_nil hne _
  length_path := by
    rw [h.logFilePath]
    cases o with
    | none => exact length_left hlength
    | some opened =>
      have hlt := h.length_lt opened rfl
      rw [Option.elim_some, List.length_append, List.length_drop, length_left hlength]
      omega

theorem shows_init (h : Shows s a) (hsane : s.Sane (.init level onlyThisLevel logPath fopen time))
    (hcall : s.logInit level onlyThisLevel logPath fopen time = some (t, effects)) :
    Shows t (a.next (.init level onlyThisLevel logPath fopen time)) := by
  rw [Settings.next]
  split_ifs with hlow
  · rw [logInit_of_lt hlow] at hcall
    cases hcall
    refine ⟨h.chosen, fun b hb => ?_, h.file, h.unchosen, h.named, h.length_path⟩
    exact iff_of_false (by simp [bitOn8_zero b hb]) (Set.notMem_empty _)
  · refine (inits_of_logInit h.named (not_lt.mp hlow) hcall).shows (not_lt.mp hlow) ?_ h.length_path
    intro opened hopened
    obtain ⟨path, rfl, hfile⟩ := Option.bind_eq_some_iff.mp hopened
    obtain ⟨file, rfl, rfl⟩ := Option.map_eq_some_iff.mp hfile
    obtain ⟨hnul, hempty⟩ := hsane path rfl
    exact ⟨hnul, fun hnil => nomatch hempty hnil⟩

theorem Shows.used (h : Shows s a) (hcall : s.ready time = some (t, effects)) :
    Shows t a.used := by
  rw [ready, h.chosen] at hcall
  rw [Settings.used]
  split_ifs at hcall ⊢ with hchosen
  · cases hcall
    exact h
  · exact shows_init h (fun path hpath => by cases hpath) hcall

/-- What `log_private` writes for a message. -/
def recordText (level : ℤ) (place : Place) (message time : List UInt8) (file : Option φ) :
    List UInt8 :=
  (chars "[" ++ chars (toString level) ++ chars "][" ++ time ++ chars "]-").take 99 ++
    (front level place file ++ cString message ++ [0x0A]) ++ file.elim NONE fun _ => []

theorem logPrivate_eq_some {place : Place} {message sectionTime : List UInt8}
    (h : s.logPrivate level place message sectionTime time = some (t, effects)) :
    ∃ u started, s.ready sectionTime = some (u, started) ∧ (0 ≤ level ∧ level < 31) ∧
      ((bitOn8 u.logFlag level.toNat = true ∧ t = { u with logLevel := level } ∧
          effects = started ++
            t.logPrint (front level place u.logFile ++ cString message ++ [0x0A]) time) ∨
        bitOn8 u.logFlag level.toNat = false ∧ t = u ∧ effects = started) := by
  obtain ⟨⟨u, started⟩, hstart, h⟩ := Option.bind_eq_some_iff.mp h
  dsimp only at h
  refine ⟨u, started, hstart, ?_⟩
  by_cases hlevel : level < 0 ∨ 31 ≤ level
  · rw [if_pos hlevel] at h
    cases h
  · rw [if_neg hlevel] at h
    refine ⟨by omega, ?_⟩
    cases hbit : bitOn8 u.logFlag level.toNat with
    | false =>
      rw [hbit] at h
      cases h
      exact .inr ⟨rfl, rfl, rfl⟩
    | true =>
      rw [hbit, if_pos rfl] at h
      split_ifs at h
      cases h
      exact .inl ⟨rfl, rfl, rfl⟩

theorem exists_logPrivate_iff {place : Place} {message sectionTime : List UInt8} (h : Shows s a) :
    (∃ r, s.logPrivate level place message sectionTime time = some r) ↔
      (0 ≤ level ∧ level < 31) ∧ (level ∈ a.used.levels →
        (front level place (a.used.file.map Prod.fst)).length + message.length + 1 ≤
          LOG_BUF_SIZE) := by
  obtain ⟨u, started, hready⟩ : ∃ u started, s.ready sectionTime = some (u, started) := by
    unfold ready
    split_ifs
    · exact ⟨_, _, rfl⟩
    · exact ⟨_, _, rfl⟩
  have hused := h.used hready
  rw [logPrivate, hready]
  simp only [Option.bind_eq_bind, Option.bind_some]
  by_cases hlevel : level < 0 ∨ 31 ≤ level
  · rw [if_pos hlevel]
    exact iff_of_false nofun (by omega)
  · have hbit := hused.levels level.toNat (by omega)
    rw [Int.toNat_of_nonneg (by omega)] at hbit
    rw [if_neg hlevel, and_iff_right (by omega), ← hused.file, ← hbit]
    split_ifs with hon hlong
    · exact iff_of_false nofun fun hfits => by
        have hle := hfits hon
        omega
    · exact iff_of_true ⟨_, rfl⟩ fun _ => by omega
    · exact iff_of_true ⟨_, rfl⟩ fun hyes => absurd hyes hon

theorem shows_message {place : Place} {message sectionTime : List UInt8} (h : Shows s a)
    (hcall : s.logPrivate level place message sectionTime time = some (t, effects)) :
    Shows t a.used := by
  obtain ⟨u, started, hstart, -, ⟨-, rfl, -⟩ | ⟨-, rfl, -⟩⟩ := logPrivate_eq_some hcall
  · have hshows := h.used hstart
    exact ⟨hshows.chosen, hshows.levels, hshows.file, hshows.unchosen, hshows.named,
      hshows.length_path⟩
  · exact h.used hstart

theorem shows_clear {freopen : Option φ} (h : Shows s a) (hsane : s.Sane (.clear freopen)) :
    Shows (s.logClear freopen).1 (a.next (.clear freopen)) := by
  have hfile := h.file
  rw [logClear, Settings.next]
  cases hopened : a.file with
  | none =>
    rw [hopened] at hfile
    rw [hfile]
    exact ⟨h.chosen, h.levels, hfile, fun _ => rfl, h.named, h.length_path⟩
  | some opened =>
    rw [hopened] at hfile
    rw [hfile]
    refine ⟨h.chosen, h.levels, ?_, ?_, ?_, h.length_path⟩
    · cases freopen <;> rfl
    · intro hchosen
      cases hopened.symm.trans (h.unchosen hchosen)
    · intro file heq
      exact h.named file (hsane file heq)

theorem Shows.step {e : Call φ × List (Effect φ)} (h : Shows s a) (hstep : system.step s e t) :
    Shows t (a.next e.1) := by
  obtain ⟨c, effects⟩ := e
  obtain ⟨hsane, hcall⟩ := hstep
  cases c with
  | init level onlyThisLevel logPath fopen time => exact shows_init h hsane hcall
  | message level place message sectionTime time => exact shows_message h hcall
  | clear freopen =>
    obtain rfl : (s.logClear freopen).1 = t := congrArg Prod.fst (Option.some.inj hcall)
    exact shows_clear h hsane

theorem shows_of_run {past : List (Call φ × List (Effect φ))} (h : system.Run start past s) :
    Shows s (Settings.after past) :=
  h.history (P := fun past s => Shows s (Settings.after past))
    (fun past _ e _ hs hstep => by
      rw [Settings.after_concat]
      exact hs.step hstep)
    (show Shows start (Settings.after []) from shows_start)

end Steps

section Records

variable {past before between : List (Call φ × List (Effect φ))} {place : Place}
  {message sectionTime : List UInt8} {l : ℤ}

/-- The messages that are printed. -/
def records (effects : List (Effect φ)) : List (Option φ × List UInt8) :=
  effects.filterMap Effect.written

theorem records_append (effects effects' : List (Effect φ)) :
    records (effects ++ effects') = records effects ++ records effects' := List.filterMap_append

theorem records_logSection : records (s.logSection time) = [] := by
  unfold logSection
  split_ifs
  · rfl
  · dsimp only
    split <;> rfl

theorem Inits.records {o : Option (φ × List UInt8)}
    (h : Inits s level onlyThisLevel o time t effects) : records effects = [] := by
  rw [h.effects_eq, records_append, records_append, records_logSection]
  cases s.logFile <;> cases o <;> rfl

theorem records_of_ready (h : Shows s a) (hready : s.ready time = some (t, effects)) :
    records effects = [] := by
  unfold ready at hready
  split_ifs at hready
  · cases hready
    rfl
  · exact (inits_of_logInit h.named (by decide) hready).records

theorem records_logPrint {str : List UInt8} (htime : time ≠ []) :
    records (s.logPrint str time) = [(s.logFile,
      (chars "[" ++ chars (toString s.logLevel) ++ chars "][" ++ time ++ chars "]-").take 99 ++
        str ++ s.logFile.elim NONE fun _ => [])] := by
  rw [logPrint, if_neg htime]
  cases s.logFile with
  | none => rfl
  | some file => simp [records, Effect.written]

theorem logPrint_nil {str : List UInt8} : s.logPrint str [] = [] := rfl

theorem Shows.records (h : Shows s a)
    (hcall : s.logPrivate level place message sectionTime time = some (t, effects)) :
    (level ∈ a.used.levels ∧ time ≠ [] → records effects = [(a.used.file.map Prod.fst,
        recordText level place message time (a.used.file.map Prod.fst))]) ∧
      (¬ (level ∈ a.used.levels ∧ time ≠ []) → records effects = []) := by
  obtain ⟨u, started, hready, hlevel, hcase⟩ := logPrivate_eq_some hcall
  have hused := h.used hready
  have hstarted := records_of_ready h hready
  have hbit := hused.levels level.toNat (by omega)
  rw [Int.toNat_of_nonneg hlevel.1] at hbit
  obtain ⟨hon, rfl, rfl⟩ | ⟨hoff, rfl, rfl⟩ := hcase
  · by_cases htime : time = []
    · refine ⟨fun hand => absurd htime hand.2, fun _ => ?_⟩
      rw [records_append, hstarted, htime, logPrint_nil]
      rfl
    · refine ⟨fun _ => ?_, fun hnot => absurd ⟨hbit.mp hon, htime⟩ hnot⟩
      rw [records_append, hstarted, records_logPrint htime, ← hused.file]
      rfl
  · refine ⟨fun hand => ?_, fun _ => hstarted⟩
    cases hoff.symm.trans (hbit.mpr hand.1)

/-- A message is printed exactly if its level is one of those that were chosen and the clock can be
read, and it goes to the stream that was chosen. -/
theorem records_of_message (hrun : system.Run start past s) (level : ℤ) (place : Place)
    (message sectionTime time : List UInt8) :
    ((∃ r, s.logPrivate level place message sectionTime time = some r) ↔
      (0 ≤ level ∧ level < 31) ∧ (level ∈ (Settings.after past).used.levels →
        (front level place ((Settings.after past).used.file.map Prod.fst)).length +
          message.length + 1 ≤ LOG_BUF_SIZE)) ∧
    ∀ t effects, system.step s (.message level place message sectionTime time, effects) t →
      (level ∈ (Settings.after past).used.levels ∧ time ≠ [] →
        records effects = [((Settings.after past).used.file.map Prod.fst,
          recordText level place message time ((Settings.after past).used.file.map Prod.fst))]) ∧
      (¬ (level ∈ (Settings.after past).used.levels ∧ time ≠ []) → records effects = []) :=
  ⟨exists_logPrivate_iff (shows_of_run hrun), fun _ _ hstep => (shows_of_run hrun).records hstep.2⟩

/-- A call of `log_init`. -/
def IsInit : Call φ → Prop
  | .init .. => True
  | _ => False

/-- A call that chooses levels. -/
def Chooses : Call φ → Prop
  | .init level .. => LOG_F ≤ level
  | .message .. => True
  | .clear _ => False

theorem chosen_next (a : Settings φ) (c : Call φ) :
    (a.next c).chosen = true ↔ a.chosen = true ∨ Chooses c := by
  cases c with
  | init level =>
    rw [Settings.next, Chooses]
    split_ifs with hlow
    · simp [not_le.mpr hlow]
    · simp [not_lt.mp hlow]
  | message =>
    rw [Settings.next, Settings.used, Chooses]
    split_ifs with hchosen <;> simp [*]
  | clear => simp [Settings.next, Chooses]

theorem chosen_after : (Settings.after past).chosen = true ↔ ∃ e ∈ past, Chooses e.1 := by
  induction past using List.reverseRecOn with
  | nil => simp [Settings.start]
  | append_singleton past e ih => simp [chosen_next, ih, or_and_right, exists_or]

theorem levels_used_next {a : Settings φ} {c : Call φ} (h : ¬ IsInit c) :
    (a.next c).used.levels = a.used.levels := by
  cases c with
  | init => exact absurd trivial h
  | message =>
    rw [Settings.next, Settings.used, Settings.used]
    split_ifs <;> rfl
  | clear =>
    rw [Settings.next, Settings.used, Settings.used]
    split_ifs <;> rfl

theorem levels_after {e : Call φ × List (Effect φ)} (h : ∀ e ∈ between, ¬ IsInit e.1) :
    (Settings.after (before ++ e :: between)).used.levels =
      ((Settings.after before).next e.1).used.levels := by
  induction between using List.reverseRecOn with
  | nil => rw [Settings.after_concat]
  | append_singleton between e' ih =>
    rw [← List.cons_append, ← List.append_assoc, Settings.after_concat,
      levels_used_next (h e' (by simp)), ih fun e he => h e (List.mem_append_left _ he)]

/-- Behind a call of `log_init` below `LOG_F` a message is silenced exactly if levels had been
chosen before, or it is not one of those that are printed without a choice, or the clock cannot be
read. -/
theorem silenced_iff {done : List (Effect φ)}
    (hrun : system.Run start
      (before ++ (.init level onlyThisLevel logPath fopen time, done) :: between) s)
    (hlow : level < LOG_F) (hbetween : ∀ e ∈ between, ¬ IsInit e.1) {headingTime : List UInt8}
    (hstep : system.step s (.message l place message sectionTime headingTime, effects) t) :
    records effects = [] ↔
      (∃ e ∈ before, Chooses e.1) ∨ l ∉ Set.Icc LOG_F LOG_I ∨ headingTime = [] := by
  obtain ⟨hon, hoff⟩ := (shows_of_run hrun).records hstep.2
  rw [levels_after hbetween, Settings.next, if_pos hlow, Settings.used] at hon hoff
  rw [← chosen_after]
  by_cases hchosen : (Settings.after before).chosen = true
  · rw [if_pos hchosen] at hoff
    exact iff_of_true (hoff fun hand => Set.notMem_empty l hand.1) (.inl hchosen)
  · rw [if_neg hchosen] at hon hoff
    rw [or_iff_right hchosen, ← imp_iff_not_or, ← not_and_not_right]
    exact ⟨fun hnil hmem => absurd (hnil.symm.trans (hon hmem)) nofun, hoff⟩

end Records

section Samples

def logging : Logger ℕ where
  logFlag := 0x7E
  logInited := true
  logFile := some 7
  logFilePath := 0x6C :: List.replicate 99 0
  logLevel := 0

def loggingRun : List (Call ℕ × List (Effect ℕ)) :=
  [(.init LOG_D false (some [0x6C]) (some 7) [], [.fopen [0x6C] 7])]

theorem run_logging : system.Run start loggingRun logging :=
  .cons ⟨by rintro path ⟨⟩; decide, rfl⟩ (.nil _)

theorem records_of_message_logging :
    ((∃ r, logging.logPrivate LOG_W ⟨[0x66], 1, [0x67]⟩ [0x68] [] [0x31] = some r) ↔
      (0 ≤ LOG_W ∧ LOG_W < 31) ∧ (LOG_W ∈ (Settings.after loggingRun).used.levels →
        (front LOG_W ⟨[0x66], 1, [0x67]⟩
          ((Settings.after loggingRun).used.file.map Prod.fst)).length +
            [(0x68 : UInt8)].length + 1 ≤ LOG_BUF_SIZE)) ∧
    ∀ t effects,
      system.step logging (.message LOG_W ⟨[0x66], 1, [0x67]⟩ [0x68] [] [0x31], effects) t →
      (LOG_W ∈ (Settings.after loggingRun).used.levels ∧ [(0x31 : UInt8)] ≠ [] →
        records effects = [((Settings.after loggingRun).used.file.map Prod.fst,
          recordText LOG_W ⟨[0x66], 1, [0x67]⟩ [0x68] [0x31]
            ((Settings.after loggingRun).used.file.map Prod.fst))]) ∧
      (¬ (LOG_W ∈ (Settings.after loggingRun).used.levels ∧ [(0x31 : UInt8)] ≠ []) →
        records effects = []) :=
  records_of_message run_logging LOG_W ⟨[0x66], 1, [0x67]⟩ [0x68] [] [0x31]

theorem silenced_iff_none : ∃ (t : Logger ℕ) (effects : List (Effect ℕ)),
    system.step start (.message LOG_I ⟨[0x66], 1, [0x67]⟩ [0x68] [] [0x31], effects) t ∧
      (records effects = [] ↔
        (∃ e ∈ ([] : List (Call ℕ × List (Effect ℕ))), Chooses e.1) ∨
          LOG_I ∉ Set.Icc LOG_F LOG_I ∨ [(0x31 : UInt8)] = []) := by
  have hrun : system.Run (start : Logger ℕ) ([] ++ (.init 0 false none none [], []) :: []) start :=
    .cons ⟨nofun, rfl⟩ (.nil _)
  obtain ⟨t, effects, hstep⟩ : ∃ t effects, system.step (start : Logger ℕ)
      (.message LOG_I ⟨[0x66], 1, [0x67]⟩ [0x68] [] [0x31], effects) t := ⟨_, _, trivial, rfl⟩
  exact ⟨t, effects, hstep, silenced_iff hrun (by decide) nofun hstep⟩

end Samples

end Logger

end Mbtk.Log
