/-
  CodeQuery.Lsp.DaemonFile — the daemon info file and everyone who writes or removes
  it (`daemon_file.rs`, `Daemon::run`, `DaemonClient::connect`, `run_start`,
  `clear_all_caches`).

  A daemon empties the file, writes its port and token, listens, and removes the file
  when it leaves its loop; it never looks whose file that is. A client whose connection
  fails removes the file it has read, or whatever has taken its place; clearing the
  caches removes the directory the files are in; two starts can both find no daemon.

  While a daemon that listens is announced (`listening_is_announced`): in every run in
  which no info file is emptied or removed while a daemon of it is writing it or
  listening. A removal beside a daemon that listens ends this at once
  (`removal_hides`): `a_cache_clear_hides_the_daemon`.
-/

import CodeQuery.Data.FileTable
import CodeQuery.Lsp.Socket

namespace CodeQuery.Lsp

open CodeQuery.Core CodeQuery.Text CodeQuery.Data CodeQuery.Lsp.Socket

structure DaemonInfo where
  port : UInt16
  token : String
  pid : UInt32
  project : Path
  started : String
  deriving DecidableEq, Repr

namespace DaemonFile

/-! ## Processes and files -/

/-- Where a daemon process is in `Daemon::run`. -/
inductive Phase where
  | spawned
  | bound (port : UInt16) (started : String)
  /-- The info file is open and emptied. -/
  | writing (port : UInt16) (started : String) (file : Nat)
  /-- In the accept loop. -/
  | listening (port : UInt16) (started : String)
  /-- Behind the accept loop. -/
  | closing (port : UInt16)
  deriving DecidableEq, Repr

def Phase.port : Phase → Option UInt16
  | .spawned => none
  | .bound port _ => some port
  | .writing port _ _ => some port
  | .listening port _ => some port
  | .closing port => some port

structure Proc where
  project : Path
  token : String
  phase : Phase
  deriving DecidableEq, Repr

def Proc.info (d : Proc) (pid : UInt32) (port : UInt16) (started : String) : DaemonInfo :=
  ⟨port, d.token, pid, d.project, started⟩

/-- The daemon of a project is at a port. -/
def Proc.ListensAt (d : Proc) (project : Path) (port : UInt16) : Prop :=
  d.project = project ∧ ∃ started, d.phase = .listening port started

structure System where
  /-- The info files, by their hashes. -/
  files : FileTable String UInt8
  daemons : UInt32 → Option Proc
  /-- Starts that have found no daemon. -/
  starters : List Path
  /-- Clients that have read the info of their project, and are to connect. -/
  clients : List (Path × DaemonInfo)

def System.empty : System := ⟨.empty, fun _ => none, [], []⟩

def System.setDaemon (s : System) (pid : UInt32) (d : Option Proc) : System :=
  { s with daemons := Function.update s.daemons pid d }

def System.setFiles (s : System) (files : FileTable String UInt8) : System := { s with files := files }

/-- A daemon process has the port. -/
def System.Bound (s : System) (port : UInt16) : Prop := ∃ pid d, s.daemons pid = some d ∧ d.phase.port = some port

inductive Act where
  | check (project : Path) (timedOut : Bool)
  | spawn (project : Path) (pid : UInt32)
  | bind (pid : UInt32)
  | openFile (pid : UInt32)
  | write (pid : UInt32)
  | writeFails (pid : UInt32)
  | stop (pid : UInt32)
  | exit (pid : UInt32)
  | die (pid : UInt32)
  | readInfo (project : Path)
  | connect (client : Path × DaemonInfo)
  | connectFails (client : Path × DaemonInfo) (timedOut : Bool)
  | clear (gone : String → Bool)

section System

variable (c : Codec DaemonInfo) (projectHash : Path → String)

/-- `read_daemon_info`: nothing without a file, or of one that does not parse. -/
def readDaemonInfo (s : System) (project : Path) : Option DaemonInfo :=
  (s.files.read (projectHash project)).bind c.decode

inductive Step : System → Act → System → Prop
  /-- `run_start` finds no daemon: no info, nobody at the port, or not in time. -/
  | check (s : System) (project : Path) (timedOut : Bool) :
      timedOut = true ∨ (∀ info, readDaemonInfo c projectHash s project = some info → ¬s.Bound info.port) →
      Step s (.check project timedOut) { s with starters := project :: s.starters }
  | spawn (s : System) (project : Path) (pid : UInt32) (token : String) :
      project ∈ s.starters → s.daemons pid = none →
      Step s (.spawn project pid)
        { s.setDaemon pid (some ⟨project, token, .spawned⟩) with starters := s.starters.erase project }
  | bind (s : System) (pid : UInt32) (d : Proc) (port : UInt16) (started : String) :
      s.daemons pid = some d → d.phase = .spawned → ¬s.Bound port →
      Step s (.bind pid) (s.setDaemon pid (some { d with phase := .bound port started }))
  /-- `fs::write` of the info opens the file. -/
  | openFile (s : System) (pid : UInt32) (d : Proc) (port : UInt16) (started : String) :
      s.daemons pid = some d → d.phase = .bound port started → (c.encode (d.info pid port started)).isSome →
      Step s (.openFile pid)
        ((s.setDaemon pid (some { d with phase := .writing port started (s.files.handle (projectHash d.project)) })).setFiles
          (s.files.openTruncate (projectHash d.project)))
  /-- It writes it, and the daemon goes on to its accept loop. -/
  | write (s : System) (pid : UInt32) (d : Proc) (port : UInt16) (started : String) (file : Nat) (json : Str) :
      s.daemons pid = some d → d.phase = .writing port started file → c.encode (d.info pid port started) = some json →
      Step s (.write pid)
        ((s.setDaemon pid (some { d with phase := .listening port started })).setFiles (s.files.write file json))
  /-- The write breaks off, and the daemon ends with an error. -/
  | writeFails (s : System) (pid : UInt32) (d : Proc) (port : UInt16) (started : String) (file : Nat) (part : Str) :
      s.daemons pid = some d → d.phase = .writing port started file →
      Step s (.writeFails pid) ((s.setDaemon pid none).setFiles (s.files.write file part))
  /-- A request or a signal ends the accept loop. -/
  | stop (s : System) (pid : UInt32) (d : Proc) (port : UInt16) (started : String) :
      s.daemons pid = some d → d.phase = .listening port started →
      Step s (.stop pid) (s.setDaemon pid (some { d with phase := .closing port }))
  /-- `remove_daemon_file`, and the end of `run`. -/
  | exit (s : System) (pid : UInt32) (d : Proc) (port : UInt16) :
      s.daemons pid = some d → d.phase = .closing port →
      Step s (.exit pid) ((s.setDaemon pid none).setFiles (s.files.remove (projectHash d.project)))
  /-- The process ends without the rest of `run`: an error of it, or a kill. -/
  | die (s : System) (pid : UInt32) (d : Proc) : s.daemons pid = some d → Step s (.die pid) (s.setDaemon pid none)
  | readInfo (s : System) (project : Path) (info : DaemonInfo) : readDaemonInfo c projectHash s project = some info →
      Step s (.readInfo project) { s with clients := (project, info) :: s.clients }
  | connect (s : System) (client : Path × DaemonInfo) : client ∈ s.clients →
      Step s (.connect client) { s with clients := s.clients.erase client }
  /-- `connect`'s way out: nobody at the port, or not in time. -/
  | connectFails (s : System) (client : Path × DaemonInfo) (timedOut : Bool) : client ∈ s.clients →
      timedOut = true ∨ ¬s.Bound client.2.port →
      Step s (.connectFails client timedOut)
        ({ s with clients := s.clients.erase client }.setFiles (s.files.remove (projectHash client.1)))
  /-- `clear_all_caches`: of the cache directory, and `daemons/` in it, as much as can
      be removed. -/
  | clear (s : System) (gone : String → Bool) : Step s (.clear gone) (s.setFiles (s.files.removeWhere gone))

/-- Runs whose steps are all of a kind. -/
inductive Reachable (kind : System → Act → Prop) : System → Prop
  | start : Reachable kind .empty
  | step {s s' : System} {a : Act} : Reachable kind s → Step c projectHash s a s' → kind s a → Reachable kind s'

/-- A daemon that listens is announced: the info file of its project is there, and names
    the port and the token of a daemon that listens. -/
def Announced (s : System) : Prop :=
  ∀ pid d project port, s.daemons pid = some d → d.ListensAt project port →
    ∃ info, readDaemonInfo c projectHash s project = some info ∧
      ∃ pid' d', s.daemons pid' = some d' ∧ d'.ListensAt project info.port ∧ d'.token = info.token

/-! ## Undisturbed steps -/

/-- From opening its info file to leaving the accept loop. -/
def Proc.Active (d : Proc) : Prop :=
  match d.phase with
  | .writing .. => True
  | .listening .. => True
  | _ => False

/-- The info files an act empties or removes. -/
def touches (s : System) : Act → String → Prop
  | .openFile pid, name => ∃ d, s.daemons pid = some d ∧ projectHash d.project = name
  | .exit pid, name => ∃ d, s.daemons pid = some d ∧ projectHash d.project = name
  | .connectFails client _, name => projectHash client.1 = name
  | .clear gone, name => gone name = true
  | _, _ => False

/-- No daemon is writing the info file under a name, or listening. -/
def Quiet (projectHash : Path → String) (daemons : UInt32 → Option Proc) (name : String) : Prop :=
  ∀ pid d, daemons pid = some d → d.Active → projectHash d.project ≠ name

def Undisturbed (s : System) (a : Act) : Prop := ∀ name, touches projectHash s a name → Quiet projectHash s.daemons name

/-! ## The invariant -/

/-- What an active daemon has in its file. -/
def Proc.Wrote (d : Proc) (pid : UInt32) (i : Nat) (bytes : Str) : Prop :=
  match d.phase with
  | .writing _ _ file => i = file ∧ bytes = []
  | .listening port started => c.encode (d.info pid port started) = some bytes
  | _ => False

/-- Active daemons have different files, linked to their names, with what they wrote. -/
structure Inv (files : FileTable String UInt8) (daemons : UInt32 → Option Proc) : Prop where
  alone : ∀ pid d pid' d', daemons pid = some d → daemons pid' = some d' → d.Active → d'.Active →
    projectHash d.project = projectHash d'.project → pid = pid'
  wrote : ∀ pid d, daemons pid = some d → d.Active →
    ∃ i bytes, d.Wrote c pid i bytes ∧ files.Holds (projectHash d.project) i bytes

variable {c projectHash} {files : FileTable String UInt8} {daemons : UInt32 → Option Proc}

theorem update_some {pid pid' : UInt32} {o : Option Proc} {d : Proc} (h : Function.update daemons pid o pid' = some d) :
    pid' = pid ∧ o = some d ∨ pid' ≠ pid ∧ daemons pid' = some d := by
  by_cases hpid : pid' = pid
  · subst hpid
    rw [Function.update_self] at h
    exact Or.inl ⟨rfl, h⟩
  · rw [Function.update_of_ne hpid] at h
    exact Or.inr ⟨hpid, h⟩

/-- A daemon that ends, or goes where it has no file open. -/
theorem Inv.update_inactive (h : Inv c projectHash files daemons) (pid : UInt32) {o : Option Proc}
    (ho : ∀ d, o = some d → ¬d.Active) : Inv c projectHash files (Function.update daemons pid o) := by
  refine ⟨fun p d p' d' hd hd' ha ha' heq => ?_, fun p d hd ha => ?_⟩
  · rcases update_some hd with ⟨-, hd⟩ | ⟨-, hd⟩
    · exact absurd ha (ho d hd)
    rcases update_some hd' with ⟨-, hd'⟩ | ⟨-, hd'⟩
    · exact absurd ha' (ho d' hd')
    exact h.alone p d p' d' hd hd' ha ha' heq
  · rcases update_some hd with ⟨-, hd⟩ | ⟨-, hd⟩
    · exact absurd ha (ho d hd)
    · exact h.wrote p d hd ha

/-- A daemon that is active now, on a file no other is active on. -/
theorem Inv.update_active (h : Inv c projectHash files daemons) (pid : UInt32) (d : Proc) (i : Nat) (bytes : Str)
    (hquiet : Quiet projectHash (Function.update daemons pid none) (projectHash d.project))
    (hwrote : d.Wrote c pid i bytes) (hholds : files.Holds (projectHash d.project) i bytes) :
    Inv c projectHash files (Function.update daemons pid (some d)) := by
  have hother : ∀ p ≠ pid, ∀ d', daemons p = some d' → d'.Active → projectHash d'.project ≠ projectHash d.project :=
    fun p hp d' hd' ha => hquiet p d' ((Function.update_of_ne hp ..).trans hd') ha
  refine ⟨fun p e p' e' he he' ha ha' heq => ?_, fun p e he ha => ?_⟩
  · rcases update_some he with ⟨hp, he⟩ | ⟨hp, he⟩ <;> rcases update_some he' with ⟨hp', he'⟩ | ⟨hp', he'⟩
    · exact hp.trans hp'.symm
    · cases he
      exact absurd heq.symm (hother p' hp' e' he' ha')
    · cases he'
      exact absurd heq (hother p hp e he ha)
    · exact h.alone p e p' e' he he' ha ha' heq
  · rcases update_some he with ⟨hp, he⟩ | ⟨-, he⟩
    · cases he
      subst hp
      exact ⟨i, bytes, hwrote, hholds⟩
    · exact h.wrote p e he ha

theorem Inv.removeWhere (h : Inv c projectHash files daemons) {gone : String → Bool}
    (hquiet : ∀ name, gone name = true → Quiet projectHash daemons name) :
    Inv c projectHash (files.removeWhere gone) daemons := by
  refine ⟨h.alone, fun pid d hd ha => ?_⟩
  obtain ⟨i, bytes, hwrote, hholds⟩ := h.wrote pid d hd ha
  refine ⟨i, bytes, hwrote, hholds.removeWhere ?_⟩
  by_contra hgone
  exact hquiet _ (by simpa using hgone) pid d hd ha rfl

theorem Inv.openTruncate (h : Inv c projectHash files daemons) {name : String}
    (hquiet : Quiet projectHash daemons name) : Inv c projectHash (files.openTruncate name) daemons := by
  refine ⟨h.alone, fun pid d hd ha => ?_⟩
  obtain ⟨i, bytes, hwrote, hholds⟩ := h.wrote pid d hd ha
  exact ⟨i, bytes, hwrote, hholds.openTruncate_ne (hquiet pid d hd ha)⟩

/-- A write to the file of a name leaves the other names' files. -/
theorem Inv.write (h : Inv c projectHash files daemons) {name : String} {i : Nat} {old : Str}
    (hholds : files.Holds name i old) (hquiet : Quiet projectHash daemons name) (bytes : Str) :
    Inv c projectHash (files.write i bytes) daemons := by
  refine ⟨h.alone, fun pid d hd ha => ?_⟩
  obtain ⟨j, other, hwrote, hother⟩ := h.wrote pid d hd ha
  exact ⟨j, other, hwrote, hother.write_ne (hother.ne hholds (hquiet pid d hd ha)) bytes⟩

/-- With an active daemon gone, its name is quiet. -/
theorem Inv.quiet (h : Inv c projectHash files daemons) {pid : UInt32} {d : Proc} (hd : daemons pid = some d)
    (ha : d.Active) : Quiet projectHash (Function.update daemons pid none) (projectHash d.project) := by
  intro p e he hea heq
  rcases update_some he with ⟨-, he⟩ | ⟨hp, he⟩
  · cases he
  · exact hp (h.alone p e pid d he hd hea ha heq)

/-! ## Runs -/

theorem step_inv {s s' : System} {a : Act} (hstep : Step c projectHash s a s') (hquiet : Undisturbed projectHash s a)
    (h : Inv c projectHash s.files s.daemons) : Inv c projectHash s'.files s'.daemons := by
  cases hstep with
  | check project timedOut _ => exact h
  | spawn project pid token _ _ =>
    refine h.update_inactive pid fun d hd => ?_
    cases hd
    simp [Proc.Active]
  | bind pid d port started _ _ _ =>
    refine h.update_inactive pid fun d hd => ?_
    cases hd
    simp [Proc.Active]
  | openFile pid d port started hd hphase _ =>
    have hname : Quiet projectHash s.daemons (projectHash d.project) := hquiet _ ⟨d, hd, rfl⟩
    refine (h.openTruncate hname).update_active pid _ (s.files.handle (projectHash d.project)) [] ?_
      ⟨rfl, rfl⟩ (s.files.openTruncate_holds _)
    intro p e he ha
    rcases update_some he with ⟨-, he⟩ | ⟨-, he⟩
    · cases he
    · exact hname p e he ha
  | write pid d port started file json hd hphase hencode =>
    have ha : d.Active := by simp [Proc.Active, hphase]
    obtain ⟨i, bytes, hwrote, hholds⟩ := h.wrote pid d hd ha
    obtain ⟨rfl, rfl⟩ : i = file ∧ bytes = [] := by simpa [Proc.Wrote, hphase] using hwrote
    have hdaemon := h.quiet hd ha
    have hgone := (h.update_inactive pid (o := none) (by simp)).write hholds hdaemon json
    have hadd := hgone.update_active pid { d with phase := .listening port started } i json
      (by rwa [Function.update_idem]) hencode (hholds.write json)
    rwa [Function.update_idem] at hadd
  | writeFails pid d port started file part hd hphase =>
    have ha : d.Active := by simp [Proc.Active, hphase]
    obtain ⟨i, bytes, hwrote, hholds⟩ := h.wrote pid d hd ha
    obtain ⟨rfl, rfl⟩ : i = file ∧ bytes = [] := by simpa [Proc.Wrote, hphase] using hwrote
    exact (h.update_inactive pid (o := none) (by simp)).write hholds (h.quiet hd ha) part
  | stop pid d port started _ _ =>
    refine h.update_inactive pid fun d hd => ?_
    cases hd
    simp [Proc.Active]
  | exit pid d port hd _ =>
    refine (h.removeWhere fun name hname => ?_).update_inactive pid (o := none) (by simp)
    exact hquiet name ⟨d, hd, (beq_iff_eq.mp hname).symm⟩
  | die pid d _ => exact h.update_inactive pid (o := none) (by simp)
  | readInfo project info _ => exact h
  | connect client _ => exact h
  | connectFails client timedOut _ _ =>
    exact h.removeWhere fun name hname => hquiet name (beq_iff_eq.mp hname).symm
  | clear gone => exact h.removeWhere fun name hname => hquiet name hname

theorem run_inv {s : System} (h : Reachable c projectHash (Undisturbed projectHash) s) :
    Inv c projectHash s.files s.daemons := by
  induction h with
  | start => exact ⟨by simp [System.empty], by simp [System.empty]⟩
  | step _ hstep hquiet ih => exact step_inv hstep hquiet ih

/-- In every run in which no info file is emptied or removed while a daemon is writing
    it or listening, a daemon that listens is announced. -/
theorem listening_is_announced {s : System} (h : Reachable c projectHash (Undisturbed projectHash) s) :
    Announced c projectHash s := by
  intro pid d project port hd hlistens
  obtain ⟨rfl, started, hphase⟩ := hlistens
  obtain ⟨i, json, hwrote, hholds⟩ := (run_inv h).wrote pid d hd (by simp [Proc.Active, hphase])
  have hencode : c.encode (d.info pid port started) = some json := by simpa [Proc.Wrote, hphase] using hwrote
  refine ⟨d.info pid port started, ?_, pid, d, hd, ⟨rfl, started, hphase⟩, rfl⟩
  rw [readDaemonInfo, hholds.read, Option.bind_some]
  exact c.roundTrip _ _ hencode

/-- A removal of the info file of a daemon that listens leaves it unannounced, whoever
    removes it. -/
theorem removal_hides {s s' : System} {a : Act} (hstep : Step c projectHash s a s') {pid : UInt32} {d : Proc}
    {project : Path} {port : UInt16} (hd : s.daemons pid = some d) (hlistens : d.ListensAt project port)
    (htouches : touches projectHash s a (projectHash project)) (hremoval : ∀ p, a ≠ .openFile p) :
    ¬Announced c projectHash s' := by
  have hgone : ∀ gone : String → Bool, gone (projectHash project) = true → s'.files = s.files.removeWhere gone →
      s'.daemons pid = some d → ¬Announced c projectHash s' := by
    intro gone hname hfiles hdaemon hann
    obtain ⟨info, hread, -⟩ := hann pid d project port hdaemon hlistens
    rw [readDaemonInfo, hfiles, FileTable.read_removeWhere hname] at hread
    cases hread
  cases hstep with
  | openFile p _ _ _ _ _ _ => exact absurd rfl (hremoval p)
  | exit p e q he hphase =>
    obtain ⟨e', he', hname⟩ := htouches
    obtain rfl : e = e' := Option.some.inj (he.symm.trans he')
    -- it has left its loop, so it is another than the one that listens
    have hne : pid ≠ p := by
      intro heq
      subst heq
      obtain rfl : d = e := Option.some.inj (hd.symm.trans he)
      obtain ⟨-, started, hlisten⟩ := hlistens
      rw [hphase] at hlisten
      cases hlisten
    exact hgone (· == projectHash e.project) (beq_iff_eq.mpr hname.symm) rfl ((Function.update_of_ne hne ..).trans hd)
  | connectFails client timedOut _ _ =>
    have hname : projectHash client.1 = projectHash project := htouches
    exact hgone (· == projectHash client.1) (beq_iff_eq.mpr hname.symm) rfl hd
  | clear gone => exact hgone gone htouches rfl hd
  | _ => exact htouches.elim

end System

/-! ## A daemon is started, the caches are cleared -/

def project : Path := [.rootDir, .normal "p"]

def aDaemon : Proc := ⟨project, "k", .listening 4000 "now"⟩

def infoTexts : Codec DaemonInfo where
  encode info := if info = aDaemon.info 1 4000 "now" then some (str "info") else none
  decode json := if json = str "info" then some (aDaemon.info 1 4000 "now") else none
  roundTrip info json h := by
    split at h
    · rename_i hinfo
      cases h
      simp [hinfo]
    · cases h

def byName (p : Path) : String := p.fileName.getD ""

theorem Reachable.mono {c : Codec DaemonInfo} {projectHash : Path → String} {kind kind' : System → Act → Prop}
    (hkind : ∀ s a, kind s a → kind' s a) {s : System} (h : Reachable c projectHash kind s) :
    Reachable c projectHash kind' s := by
  induction h with
  | start => exact .start
  | step _ hstep hs ih => exact ih.step hstep (hkind _ _ hs)

/-- One start, as far as the accept loop. -/
theorem started_run : ∃ s, Reachable infoTexts byName (Undisturbed byName) s ∧ s.daemons 1 = some aDaemon := by
  have h0 : Reachable infoTexts byName (Undisturbed byName) .empty := .start
  have hnone : readDaemonInfo infoTexts byName System.empty project = none := rfl
  have h1 := h0.step (.check _ project false (Or.inr (by simp [hnone]))) (by simp [Undisturbed, touches])
  have h2 := h1.step (.spawn _ project 1 "k" (by simp) rfl) (by simp [Undisturbed, touches])
  have hone : ∀ pid d, (System.empty.setDaemon 1 (some ⟨project, "k", .spawned⟩)).daemons pid = some d →
      d = ⟨project, "k", .spawned⟩ := by
    intro pid d hd
    rcases update_some hd with ⟨-, hd⟩ | ⟨-, hd⟩
    · exact (Option.some.inj hd).symm
    · cases hd
  have h3 := h2.step (.bind _ 1 ⟨project, "k", .spawned⟩ 4000 "now" rfl rfl ?_) (by simp [Undisturbed, touches])
  have h4 := h3.step (.openFile _ 1 ⟨project, "k", .bound 4000 "now"⟩ 4000 "now" rfl rfl (by decide)) ?_
  have h5 := h4.step (.write _ 1 ⟨project, "k", .writing 4000 "now" 0⟩ 4000 "now" 0 (str "info") rfl rfl (by decide))
    (by simp [Undisturbed, touches])
  · exact ⟨_, h5, rfl⟩
  · intro name _ pid d hd ha
    rcases update_some hd with ⟨-, hd⟩ | ⟨-, hd⟩
    · cases hd
      exact ha.elim
    · rw [hone pid d hd] at ha
      exact ha.elim
  · intro hbound
    obtain ⟨pid, d, hd, hport⟩ := hbound
    rw [hone pid d hd] at hport
    cases hport

theorem listening_is_announced_once_started :
    ∃ s, Reachable infoTexts byName (Undisturbed byName) s ∧ s.daemons 1 = some aDaemon ∧ Announced infoTexts byName s := by
  obtain ⟨s, hreach, hd⟩ := started_run
  exact ⟨s, hreach, hd, listening_is_announced hreach⟩

/-- `cq cache clear` beside a daemon that listens: its info file is gone. -/
theorem a_cache_clear_hides_the_daemon :
    ∃ s, Reachable infoTexts byName (fun _ _ => True) s ∧ (∃ d, s.daemons 1 = some d ∧ d.ListensAt project 4000) ∧
      readDaemonInfo infoTexts byName s project = none ∧ ¬Announced infoTexts byName s := by
  obtain ⟨s, hreach, hd⟩ := started_run
  have hlistens : aDaemon.ListensAt project 4000 := ⟨rfl, "now", rfl⟩
  have hclear : Step infoTexts byName s (.clear fun _ => true) _ := .clear s _
  refine ⟨_, (hreach.mono fun _ _ _ => trivial).step hclear trivial, ⟨aDaemon, hd, hlistens⟩, ?_,
    removal_hides hclear hd hlistens rfl (by simp)⟩
  rw [readDaemonInfo, System.setFiles, FileTable.read_removeWhere rfl]
  rfl

end DaemonFile

end CodeQuery.Lsp
