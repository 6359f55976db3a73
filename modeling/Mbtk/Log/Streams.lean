import Mathlib.Data.Finset.Option
import Mbtk.Log.Records

namespace Mbtk.Log

open Lib Sock

section Streams

variable {φ : Type}

/-- What may be done while a stream, or none, is open.  Texts go to the open stream, and to the
terminal only when there is none. -/
inductive StreamStep : Option φ → Effect φ → Option φ → Prop
  | fopen (path : List UInt8) (file : φ) : StreamStep none (.fopen path file) (some file)
  | fclose (file : φ) : StreamStep (some file) (.fclose file) none
  | freopen (path : List UInt8) (file : φ) (result : Option φ) :
      StreamStep (some file) (.freopen path file result) result
  | heading (file : Option φ) (text : List UInt8) : StreamStep file (.heading file text) file
  | record (file : Option φ) (text : List UInt8) : StreamStep file (.record file text) file
  | blank (text : List UInt8) : StreamStep none (.blank text) none

def oneStream : System (Option φ) (Effect φ) where
  init o := o = none
  step := StreamStep

/-- The streams that an effect acquires and releases; `freopen` closes its stream also when it
fails. -/
def Effect.events : Effect φ → List (ResourceEvent φ)
  | .fopen _ file => [.acquire file]
  | .fclose file => [.release file]
  | .freopen _ file result => .release file :: result.toList.map .acquire
  | _ => []

def events (effects : List (Effect φ)) : List (ResourceEvent φ) := effects.flatMap Effect.events

variable [DecidableEq φ]

/-- The log is proper, and what it holds is the open stream. -/
structure Holds (effects : List (Effect φ)) (o : Option φ) : Prop where
  proper : Resource.Proper (events effects)
  held : Resource.held (events effects) = o.toFinset

theorem Holds.step {past : List (Effect φ)} {o o' : Option φ} {e : Effect φ} (h : Holds past o)
    (hstep : StreamStep o e o') : Holds (past ++ [e]) o' := by
  have hevents : events (past ++ [e]) = events past ++ e.events := by
    rw [events, List.flatMap_append, List.flatMap_singleton]
    rfl
  obtain ⟨hproper, hheld⟩ := h
  constructor <;> rw [hevents]
  · cases hstep with
    | fopen path file => exact .acquire hproper (by simp [hheld])
    | fclose file => exact .release hproper (by simp [hheld])
    | freopen path file =>
      have hreleased := Resource.Proper.release (a := file) hproper (by simp [hheld])
      cases o' with
      | none => exact hreleased
      | some file' =>
        rw [Effect.events, List.append_cons]
        exact .acquire hreleased (by simp [hheld])
    | heading | record | blank => simpa [Effect.events] using hproper
  · cases hstep with
    | fopen path file => simp [Effect.events, hheld]
    | fclose file => simp [Effect.events, hheld]
    | freopen path file =>
      rw [Effect.events, List.append_cons]
      cases o' with
      | none => simp [hheld]
      | some file' =>
        rw [Option.toList_some, List.map_singleton, Resource.held_acquire, Resource.held_release,
          hheld]
        simp
    | heading | record | blank => simpa [Effect.events] using hheld

theorem holds_of_run {effects : List (Effect φ)} {o : Option φ}
    (h : oneStream.Run none effects o) : Holds effects o :=
  h.history (P := Holds) (fun _ _ _ _ hs hstep => hs.step hstep)
    (show Holds [] none from ⟨.nil, rfl⟩)

end Streams

namespace Logger

variable {φ : Type} {s t : Logger φ} {a : Settings φ} {level : ℤ} {onlyThisLevel : Bool}
  {logPath : Option (List UInt8)} {fopen : Option φ} {path time : List UInt8}
  {effects : List (Effect φ)} {past : List (Call φ × List (Effect φ))}

section Refinement

theorem run_logSection : oneStream.Run s.logFile (s.logSection time) s.logFile := by
  rw [logSection]
  split_ifs
  · exact .nil _
  · dsimp only
    split
    · next file hfile =>
      rw [hfile]
      exact .cons (.heading _ _) (.nil _)
    · next hfile =>
      rw [hfile]
      exact .cons (.heading _ _) (.nil _)

theorem run_logPrint {str : List UInt8} :
    oneStream.Run s.logFile (s.logPrint str time) s.logFile := by
  rw [logPrint]
  split_ifs
  · exact .nil _
  · dsimp only
    split
    · next file hfile =>
      rw [hfile]
      exact .cons (.record _ _) (.nil _)
    · next hfile =>
      rw [hfile]
      exact .cons (.record _ _) (.nil _)

theorem Inits.run {o : Option (φ × List UInt8)}
    (h : Inits s level onlyThisLevel o time t effects) :
    oneStream.Run s.logFile effects t.logFile := by
  have hclosed : oneStream.Run s.logFile (s.logFile.toList.map .fclose) none := by
    cases s.logFile with
    | none => exact .nil _
    | some file => exact .cons (.fclose file) (.nil _)
  have hopened : oneStream.Run none (o.toList.map fun opened => .fopen opened.2 opened.1)
      t.logFile := by
    rw [h.logFile]
    cases o with
    | none => exact .nil _
    | some opened => exact .cons (.fopen opened.2 opened.1) (.nil _)
  rw [h.effects_eq]
  exact (hclosed.append hopened).append run_logSection

theorem run_logInit (hshows : Shows s a)
    (h : s.logInit level onlyThisLevel logPath fopen time = some (t, effects)) :
    oneStream.Run s.logFile effects t.logFile := by
  by_cases hlow : level < LOG_F
  · rw [logInit_of_lt hlow] at h
    cases h
    exact .nil _
  · exact (inits_of_logInit hshows.named (not_lt.mp hlow) h).run

theorem run_logPrivate {place : Place} {message sectionTime : List UInt8} (hshows : Shows s a)
    (h : s.logPrivate level place message sectionTime time = some (t, effects)) :
    oneStream.Run s.logFile effects t.logFile := by
  obtain ⟨u, started, hready, -, hcase⟩ := logPrivate_eq_some h
  have hstarted : oneStream.Run s.logFile started u.logFile := by
    unfold ready at hready
    split_ifs at hready
    · cases hready
      exact .nil _
    · exact run_logInit hshows hready
  obtain ⟨-, rfl, rfl⟩ | ⟨-, rfl, rfl⟩ := hcase
  · exact hstarted.append (run_logPrint (s := { u with logLevel := level }))
  · exact hstarted

theorem run_logClear {freopen : Option φ} :
    oneStream.Run s.logFile (s.logClear freopen).2 (s.logClear freopen).1.logFile := by
  rw [logClear]
  split
  · next file hfile =>
    rw [hfile]
    exact .cons (.freopen _ file freopen) (.nil _)
  · next hfile =>
    rw [hfile]
    exact .cons (.blank _) (.nil _)

theorem run_of_step {e : Call φ × List (Effect φ)} (hshows : Shows s a)
    (hstep : system.step s e t) : oneStream.Run s.logFile e.2 t.logFile := by
  obtain ⟨c, effects⟩ := e
  obtain ⟨-, hcall⟩ := hstep
  cases c with
  | init => exact run_logInit hshows hcall
  | message => exact run_logPrivate hshows hcall
  | clear freopen =>
    obtain ⟨rfl, rfl⟩ := Prod.mk.inj (Option.some.inj hcall)
    exact run_logClear

/-- All that the calls of a run do. -/
def done (past : List (Call φ × List (Effect φ))) : List (Effect φ) := past.flatMap Prod.snd

theorem run_done (hrun : system.Run start past s) : oneStream.Run none (done past) s.logFile :=
  (hrun.history
    (P := fun past s => Shows s (Settings.after past) ∧ oneStream.Run none (done past) s.logFile)
    (fun past s e t hs hstep => by
      refine ⟨?_, ?_⟩
      · rw [Settings.after_concat]
        exact hs.1.step hstep
      · rw [done, List.flatMap_append, List.flatMap_singleton]
        exact hs.2.append (run_of_step hs.1 hstep))
    (show Shows start (Settings.after []) ∧ oneStream.Run none (done []) start.logFile from
      ⟨shows_start, .nil _⟩)).2

/-- Over every run the streams are opened and closed properly, the one that is open is `log_file`,
and every text goes to the stream that is open then, and to the terminal if there is none. -/
theorem proper_done [DecidableEq φ] (hrun : system.Run start past s) :
    Resource.Proper (events (done past)) ∧
      Resource.held (events (done past)) = s.logFile.toFinset ∧
      ∀ before e after file text, done past = before ++ e :: after →
        e.output = some (file, text) → Resource.held (events before) = file.toFinset := by
  have hdone := run_done hrun
  have hholds := holds_of_run hdone
  refine ⟨hholds.proper, hholds.held, ?_⟩
  intro before e after file text hsplit houtput
  rw [hsplit] at hdone
  obtain ⟨o, hbefore, hafter⟩ := hdone.of_append
  obtain _ | ⟨hstep, -⟩ := hafter
  have ho : o = file := by cases hstep <;> cases houtput <;> rfl
  rw [(holds_of_run hbefore).held, ho]

end Refinement

section Paths

variable {before between : List (Call φ × List (Effect φ))} {file : φ} {s₀ s₁ : Logger φ}
  {e : Call φ × List (Effect φ)} {freopen : Option φ}

/-- Behind its first NUL there are only NULs. -/
def Padded (l : List UInt8) : Prop := ∃ n, l = cString l ++ List.replicate n 0

theorem notMem_cString (l : List UInt8) : (0 : UInt8) ∉ cString l := fun h => by
  simpa using List.mem_takeWhile_imp h

@[simp] theorem cString_replicate (n : ℕ) : cString (List.replicate n 0) = [] := by
  cases n <;> rfl

theorem padded_iff {l : List UInt8} :
    Padded l ↔ ∃ (str : List UInt8) (n : ℕ), 0 ∉ str ∧ l = str ++ List.replicate n 0 := by
  constructor
  · rintro ⟨n, hn⟩
    exact ⟨cString l, n, notMem_cString l, hn⟩
  · rintro ⟨str, n, hstr, rfl⟩
    refine ⟨n, ?_⟩
    rw [cString_append hstr, cString_replicate, List.append_nil]

theorem Padded.drop {l : List UInt8} (h : Padded l) (n : ℕ) :
    Padded (l.drop n) ∧ cString (l.drop n) = (cString l).drop n := by
  obtain ⟨k, hk⟩ := h
  have hstr : 0 ∉ (cString l).drop n := fun hmem => notMem_cString l (List.mem_of_mem_drop hmem)
  have heq : l.drop n = (cString l).drop n ++
      List.replicate (k - (n - (cString l).length)) 0 := by
    conv_lhs => rw [hk, List.drop_append, List.drop_replicate]
  refine ⟨padded_iff.mpr ⟨_, _, hstr, heq⟩, ?_⟩
  rw [heq, cString_append hstr, cString_replicate, List.append_nil]

theorem Padded.append {str l : List UInt8} (h : Padded l) (hstr : 0 ∉ str) : Padded (str ++ l) := by
  obtain ⟨n, hn⟩ := h
  refine ⟨n, ?_⟩
  rw [cString_append hstr, List.append_assoc, ← hn]

theorem Padded.left (h : Padded s.logFilePath) : Padded s.left := by
  unfold Logger.left
  split_ifs
  · exact ⟨PATH_SIZE, by rw [cString_replicate, List.nil_append]⟩
  · exact h

theorem logFilePath_of_step (hready : s.logInited = true) (hnot : ¬ IsInit e.1)
    (hstep : system.step s e t) : t.logInited = true ∧ t.logFilePath = s.logFilePath := by
  obtain ⟨c, effects⟩ := e
  obtain ⟨-, hcall⟩ := hstep
  cases c with
  | init => exact absurd trivial hnot
  | message =>
    obtain ⟨u, started, hu, -, hcase⟩ := logPrivate_eq_some hcall
    rw [ready, if_pos hready] at hu
    cases hu
    obtain ⟨-, rfl, -⟩ | ⟨-, rfl, -⟩ := hcase
    · exact ⟨hready, rfl⟩
    · exact ⟨hready, rfl⟩
  | clear freopen =>
    obtain rfl : (s.logClear freopen).1 = t := congrArg Prod.fst (Option.some.inj hcall)
    unfold logClear
    split
    · exact ⟨hready, rfl⟩
    · exact ⟨hready, rfl⟩

theorem logFilePath_of_run (hready : s.logInited = true) (hnot : ∀ e ∈ between, ¬ IsInit e.1)
    (hrun : system.Run s between t) : t.logFilePath = s.logFilePath := by
  induction hrun with
  | nil => rfl
  | cons hstep _ ih =>
    obtain ⟨hready', hpath⟩ := logFilePath_of_step hready (hnot _ (List.mem_cons_self ..)) hstep
    rw [ih hready' fun e he => hnot e (List.mem_cons_of_mem _ he), hpath]

theorem logFile_of_step (hready : s.logInited = true) (hnot : ¬ IsInit e.1)
    (hstep : system.step s e t) :
    (e.1 = .clear none → t.logFile = none) ∧ (e.1 ≠ .clear none → t.logFile = s.logFile) := by
  obtain ⟨c, effects⟩ := e
  obtain ⟨hsane, hcall⟩ := hstep
  cases c with
  | init => exact absurd trivial hnot
  | message =>
    obtain ⟨u, started, hu, -, hcase⟩ := logPrivate_eq_some hcall
    rw [ready, if_pos hready] at hu
    cases hu
    refine ⟨fun heq => (by cases heq), fun _ => ?_⟩
    obtain ⟨-, rfl, -⟩ | ⟨-, rfl, -⟩ := hcase <;> rfl
  | clear freopen =>
    obtain rfl : (s.logClear freopen).1 = t := congrArg Prod.fst (Option.some.inj hcall)
    cases freopen with
    | none =>
      refine ⟨fun _ => ?_, fun hne => absurd rfl hne⟩
      unfold logClear
      split
      · rfl
      · assumption
    | some file =>
      have hfile : s.logFile = some file := hsane file rfl
      refine ⟨fun heq => (by cases heq), fun _ => ?_⟩
      rw [logClear, hfile]

theorem logFile_of_run (hready : s.logInited = true) (hnot : ∀ e ∈ between, ¬ IsInit e.1)
    (hrun : system.Run s between t) :
    ((∃ e ∈ between, e.1 = .clear none) → t.logFile = none) ∧
      ((∀ e ∈ between, e.1 ≠ .clear none) → t.logFile = s.logFile) := by
  induction hrun with
  | nil => exact ⟨by simp, fun _ => rfl⟩
  | @cons _ u _ e between hstep _ ih =>
    have hnot' := hnot e List.mem_cons_self
    obtain ⟨hlost, hkept⟩ := logFile_of_step hready hnot' hstep
    obtain ⟨ihlost, ihkept⟩ := ih (logFilePath_of_step hready hnot' hstep).1
      fun e he => hnot e (List.mem_cons_of_mem _ he)
    constructor
    · intro hex
      by_cases hrest : ∃ e ∈ between, e.1 = .clear none
      · exact ihlost hrest
      · push Not at hrest
        obtain ⟨e', hmem, heq⟩ := hex
        obtain rfl | hmem := List.mem_cons.mp hmem
        · rw [ihkept hrest, hlost heq]
        · exact absurd heq (hrest e' hmem)
    · intro hall
      rw [ihkept fun e he => hall e (List.mem_cons_of_mem _ he), hkept (hall e List.mem_cons_self)]

theorem logFilePath_of_opening (hshows : Shows s a) (hlevel : LOG_F ≤ level)
    (hstep : system.step s (.init level onlyThisLevel (some path) (some file) time, effects) t) :
    0 ∉ path ∧ t.logInited = true ∧ t.logFile = some file ∧
      t.logFilePath = path ++ s.left.drop path.length := by
  obtain ⟨hsane, hcall⟩ := hstep
  have hinits : Inits s level onlyThisLevel (some (file, path)) time t effects :=
    inits_of_logInit hshows.named hlevel
      (show s.logInit level onlyThisLevel (some path) (some file) time = _ from hcall)
  exact ⟨(hsane path rfl).1, hinits.logInited, hinits.logFile, hinits.logFilePath⟩

theorem padded_init (hshows : Shows s a) (hpadded : Padded s.logFilePath)
    (hsane : s.Sane (.init level onlyThisLevel logPath fopen time))
    (hcall : s.logInit level onlyThisLevel logPath fopen time = some (t, effects)) :
    Padded t.logFilePath := by
  by_cases hlow : level < LOG_F
  · rw [logInit_of_lt hlow] at hcall
    cases hcall
    exact hpadded
  · have hinits := inits_of_logInit hshows.named (not_lt.mp hlow) hcall
    rw [hinits.logFilePath]
    cases hopened : Settings.opened logPath fopen with
    | none => exact hpadded.left
    | some opened =>
      obtain ⟨path, rfl, hfile⟩ := Option.bind_eq_some_iff.mp hopened
      obtain ⟨file, rfl, rfl⟩ := Option.map_eq_some_iff.mp hfile
      exact (hpadded.left.drop _).1.append (hsane path rfl).1

theorem padded_step (hshows : Shows s a) (hpadded : Padded s.logFilePath)
    (hstep : system.step s e t) : Padded t.logFilePath := by
  obtain ⟨c, effects⟩ := e
  obtain ⟨hsane, hcall⟩ := hstep
  cases c with
  | init => exact padded_init hshows hpadded hsane hcall
  | message =>
    obtain ⟨u, started, hu, -, hcase⟩ := logPrivate_eq_some hcall
    have hready : Padded u.logFilePath := by
      unfold ready at hu
      split_ifs at hu
      · cases hu
        exact hpadded
      · exact padded_init hshows hpadded (fun path hpath => by cases hpath) hu
    obtain ⟨-, rfl, -⟩ | ⟨-, rfl, -⟩ := hcase <;> exact hready
  | clear freopen =>
    obtain rfl : (s.logClear freopen).1 = t := congrArg Prod.fst (Option.some.inj hcall)
    unfold logClear
    split <;> exact hpadded

theorem padded_of_run (hrun : system.Run start past s) : Padded s.logFilePath :=
  (hrun.history
    (P := fun past s => Shows s (Settings.after past) ∧ Padded s.logFilePath)
    (fun past s e t hs hstep => by
      rw [Settings.after_concat]
      exact ⟨hs.1.step hstep, padded_step hs.1 hs.2 hstep⟩)
    (show Shows start (Settings.after []) ∧ Padded (start : Logger φ).logFilePath from
      ⟨shows_start, PATH_SIZE, rfl⟩)).2

/-- `log_clear` gives `freopen` the path of `log_init` with the rest of an older one behind it, so
that it empties the file that was opened exactly if that older path was not longer, and once
`freopen` has failed it only prints newlines. -/
theorem clear_iff (hbefore : system.Run start before s₀)
    (hinit : system.step s₀ (.init level onlyThisLevel (some path) (some file) time, effects) s₁)
    (hlevel : LOG_F ≤ level) (hbetween : system.Run s₁ between s)
    (hnot : ∀ e ∈ between, ¬ IsInit e.1) :
    ((∃ e ∈ between, e.1 = .clear none) →
        (s.logClear freopen).2 = [.blank (List.replicate 10 0x0A)]) ∧
      ((∀ e ∈ between, e.1 ≠ .clear none) →
        (s.logClear freopen).2 =
            [.freopen (path ++ (cString s₀.left).drop path.length) file freopen] ∧
          ((s.logClear freopen).2 = [.freopen path file freopen] ↔
            (cString s₀.left).length ≤ path.length)) := by
  obtain ⟨hnul, hready, hopened, hpath⟩ :=
    logFilePath_of_opening (shows_of_run hbefore) hlevel hinit
  obtain ⟨hlost, hkept⟩ := logFile_of_run hready hnot hbetween
  have hname : cString s.logFilePath = path ++ (cString s₀.left).drop path.length := by
    rw [logFilePath_of_run hready hnot hbetween, hpath, cString_append hnul,
      ((padded_of_run hbefore).left.drop _).2]
  constructor
  · intro hfailed
    rw [logClear, hlost hfailed]
  · intro hall
    have hclear : (s.logClear freopen).2 =
        [.freopen (path ++ (cString s₀.left).drop path.length) file freopen] := by
      rw [logClear, (hkept hall).trans hopened, ← hname]
    refine ⟨hclear, ?_⟩
    rw [hclear]
    simp

/-- If a file is open, `freopen` does not fail. -/
def Reopens (s : Logger φ) (e : Call φ × List (Effect φ)) : Prop :=
  s.logFile.isSome → e.1 ≠ .clear none

/-- The path is that of the open file, and empty when there is none. -/
structure Names (s : Logger φ) (a : Settings φ) : Prop where
  shows : Shows s a
  padded : Padded s.logFilePath
  path : cString s.logFilePath = a.file.elim [] Prod.snd

theorem Names.left (h : Names s a) : cString s.left = [] := by
  unfold Logger.left
  split_ifs with hsome
  · exact cString_replicate _
  · have hnone : a.file = none := by
      have hfile := h.shows.file
      rw [Option.not_isSome_iff_eq_none.mp hsome] at hfile
      exact Option.map_eq_none_iff.mp hfile.symm
    rw [h.path, hnone, Option.elim_none]

theorem Names.init (h : Names s a) (hsane : s.Sane (.init level onlyThisLevel logPath fopen time))
    (hcall : s.logInit level onlyThisLevel logPath fopen time = some (t, effects)) :
    Names t (a.next (.init level onlyThisLevel logPath fopen time)) := by
  refine ⟨shows_init h.shows hsane hcall, padded_init h.shows h.padded hsane hcall, ?_⟩
  rw [Settings.next]
  split_ifs with hlow
  · rw [logInit_of_lt hlow] at hcall
    cases hcall
    exact h.path
  · have hinits := inits_of_logInit h.shows.named (not_lt.mp hlow) hcall
    rw [hinits.logFilePath]
    cases hopened : Settings.opened logPath fopen with
    | none => exact h.left
    | some opened =>
      obtain ⟨path, rfl, hfile⟩ := Option.bind_eq_some_iff.mp hopened
      obtain ⟨file, rfl, rfl⟩ := Option.map_eq_some_iff.mp hfile
      rw [Option.elim_some, cString_append (hsane path rfl).1, (h.padded.left.drop _).2, h.left]
      simp

theorem Names.step (h : Names s a) (hstep : (system.restrict Reopens).step s e t) :
    Names t (a.next e.1) := by
  obtain ⟨c, effects⟩ := e
  obtain ⟨hreopens, hsane, hcall⟩ := hstep
  cases c with
  | init => exact h.init hsane hcall
  | message level place message sectionTime time =>
    obtain ⟨u, started, hu, -, hcase⟩ := logPrivate_eq_some hcall
    have hnames : Names u a.used := by
      have hshows := h.shows.used hu
      rw [ready, h.shows.chosen] at hu
      rw [Settings.used] at hshows ⊢
      split_ifs at hu hshows ⊢ with hchosen
      · cases hu
        exact h
      · exact h.init (fun path hpath => by cases hpath) hu
    obtain ⟨-, rfl, -⟩ | ⟨-, rfl, -⟩ := hcase
    · exact ⟨⟨hnames.shows.chosen, hnames.shows.levels, hnames.shows.file, hnames.shows.unchosen,
        hnames.shows.named, hnames.shows.length_path⟩, hnames.padded, hnames.path⟩
    · exact hnames
  | clear freopen =>
    obtain rfl : (s.logClear freopen).1 = t := congrArg Prod.fst (Option.some.inj hcall)
    have hsome := h.shows.file
    refine ⟨shows_clear h.shows hsane, padded_step h.shows h.padded ⟨hsane, hcall⟩, ?_⟩
    rw [Settings.next]
    cases hfile : a.file with
    | none =>
      rw [hfile] at hsome
      rw [logClear, hsome]
      exact h.path.trans (by rw [hfile]; rfl)
    | some opened =>
      rw [hfile] at hsome
      cases freopen with
      | none => exact absurd rfl (hreopens (by rw [hsome]; rfl))
      | some file =>
        rw [logClear, hsome]
        exact h.path.trans (by rw [hfile]; rfl)

theorem names_of_run (hrun : (system.restrict Reopens).Run start past s) :
    Names s (Settings.after past) :=
  hrun.history (P := fun past s => Names s (Settings.after past))
    (fun past s e t hs hstep => by
      rw [Settings.after_concat]
      exact hs.step hstep)
    (show Names start (Settings.after []) from ⟨shows_start, ⟨PATH_SIZE, rfl⟩, rfl⟩)

/-- As long as `freopen` has not failed, `log_clear` empties the file that is open, by the path that
it was opened with. -/
theorem clear_of_reopened (hrun : (system.restrict Reopens).Run start past s) :
    (s.logClear freopen).2 = (Settings.after past).file.elim [.blank (List.replicate 10 0x0A)]
      fun opened => [.freopen opened.2 opened.1 freopen] := by
  have hnames := names_of_run hrun
  have hfile := hnames.shows.file
  have hpath := hnames.path
  rw [logClear]
  cases hopened : (Settings.after past).file with
  | none =>
    rw [hopened] at hfile
    rw [hfile]
    rfl
  | some opened =>
    rw [hopened] at hfile hpath
    rw [hfile]
    simp [hpath]

end Paths

section Samples

/-- The terminal is cleared, the file `l` gets its heading and a message, and is cleared. -/
def writingRun : List (Call ℕ × List (Effect ℕ)) :=
  [(.clear none, [.blank (List.replicate 10 0x0A)]),
    (.init LOG_D false (some [0x6C]) (some 7) [0x31],
      .fopen [0x6C] 7 :: logging.logSection [0x31]),
    (.message LOG_W ⟨[0x66], 1, [0x67]⟩ [0x68] [] [0x32],
      { logging with logLevel := LOG_W }.logPrint
        (front LOG_W ⟨[0x66], 1, [0x67]⟩ (some 7) ++ [0x68] ++ [0x0A]) [0x32]),
    (.clear (some 7), [.freopen [0x6C] 7 (some 7)])]

theorem run_writing : system.Run start writingRun { logging with logLevel := LOG_W } :=
  .cons ⟨nofun, rfl⟩ (.cons ⟨by rintro path ⟨⟩; decide, rfl⟩ (.cons ⟨trivial, rfl⟩
    (.cons ⟨by rintro file ⟨⟩; rfl, rfl⟩ (.nil _))))

theorem proper_done_writing :
    Resource.Proper (events (done writingRun)) ∧
      Resource.held (events (done writingRun)) = ({7} : Finset ℕ) ∧
      ∀ before e after file text, done writingRun = before ++ e :: after →
        e.output = some (file, text) → Resource.held (events before) = file.toFinset :=
  proper_done run_writing

def lost : Logger ℕ where
  logFlag := 0x7E
  logInited := true
  logFile := none
  logFilePath := [0x6C, 0x6D] ++ List.replicate 98 0
  logLevel := 0

theorem run_lost : system.Run start [(.init LOG_D false (some [0x6C, 0x6D]) (some 7) [],
    [.fopen [0x6C, 0x6D] 7]), (.clear none, [.freopen [0x6C, 0x6D] 7 none])] lost :=
  .cons ⟨by rintro path ⟨⟩; decide, rfl⟩ (.cons ⟨nofun, rfl⟩ (.nil _))

def mislaid : Logger ℕ :=
  { lost with logFile := some 8, logFilePath := [0x66, 0x6D] ++ List.replicate 98 0 }

theorem clear_iff_lost :
    (mislaid.logClear (some 8)).2 =
        [.freopen ([0x66] ++ (cString lost.left).drop [(0x66 : UInt8)].length) 8 (some 8)] ∧
      ((mislaid.logClear (some 8)).2 = [.freopen [0x66] 8 (some 8)] ↔
        (cString lost.left).length ≤ [(0x66 : UInt8)].length) := by
  have hstep : system.step lost (.init LOG_D false (some [0x66]) (some 8) [], [.fopen [0x66] 8])
      mislaid := ⟨by rintro path ⟨⟩; decide, rfl⟩
  have hclear : system.step mislaid (.clear (some 8), [.freopen [0x66, 0x6D] 8 (some 8)]) mislaid :=
    ⟨by rintro file ⟨⟩; rfl, rfl⟩
  refine (clear_iff run_lost hstep (by decide) (.cons hclear (.nil _)) ?_).2 ?_
  · rintro e he
    obtain rfl := List.mem_singleton.mp he
    exact id
  · rintro e he
    obtain rfl := List.mem_singleton.mp he
    exact nofun

theorem clear_of_reopened_logging : (logging.logClear (some 7)).2 =
    (Settings.after loggingRun).file.elim [.blank (List.replicate 10 0x0A)]
      fun opened => [.freopen opened.2 opened.1 (some 7)] := by
  have hrun : (system.restrict Reopens).Run start loggingRun logging :=
    .cons ⟨(fun h => nomatch h), by rintro path ⟨⟩; decide, rfl⟩ (.nil _)
  exact clear_of_reopened hrun

end Samples

end Logger

end Mbtk.Log
