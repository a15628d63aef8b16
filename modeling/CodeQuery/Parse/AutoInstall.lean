/-
  CodeQuery.Parse.AutoInstall — installing a grammar on its first use
  (`auto_install_grammar` of `codequery-parse/src/parser.rs`).

  The languages tried are kept in a list behind a lock. A call takes the lock once to look
  whether its language is there and once more to put it there, and then goes on to
  download; each time it has the lock is one step here, and any threads step in between.

  While two calls for one language are never both between these steps, a language is
  installed at most once (`attempted_once`). Otherwise both find it missing
  (`two_threads_install_one_language`).
-/

import Mathlib.Data.List.Nodup
import Mathlib.Logic.Function.Basic

namespace CodeQuery.Parse.AutoInstall

/-! ## Threads -/

/-- Where a thread is in a call. -/
inductive Phase where
  | idle
  /-- The language was not on the list; the lock is given back. -/
  | missing (name : String)
  /-- It is on the list now. -/
  | marked (name : String)
  /-- The download, the extraction and what they leave. -/
  | installing (name : String)
  deriving DecidableEq, Repr

structure Process where
  /-- `AUTO_INSTALL_ATTEMPTED`. -/
  attempted : List String
  threads : Nat → Phase
  /-- The installations gone for, in order. -/
  installs : List String

def Process.start : Process := ⟨[], fun _ => .idle, []⟩

def Process.setThread (s : Process) (t : Nat) (phase : Phase) : Process :=
  { s with threads := Function.update s.threads t phase }

/-- `attempted.push(name)`. -/
def Process.mark (s : Process) (t : Nat) (name : String) : Process :=
  { s.setThread t (.marked name) with attempted := s.attempted ++ [name] }

def Process.install (s : Process) (t : Nat) (name : String) : Process :=
  { s.setThread t (.installing name) with installs := s.installs ++ [name] }

inductive Act where
  | check (t : Nat) (name : String)
  | mark (t : Nat)
  | giveUp (t : Nat)
  | install (t : Nat)
  | finish (t : Nat)
  deriving DecidableEq, Repr

inductive Step : Process → Act → Process → Prop
  /-- Already tried: the call returns `false`. -/
  | found (s : Process) (t : Nat) (name : String) : s.threads t = .idle → name ∈ s.attempted → Step s (.check t name) s
  | notFound (s : Process) (t : Nat) (name : String) : s.threads t = .idle → name ∉ s.attempted →
      Step s (.check t name) (s.setThread t (.missing name))
  | mark (s : Process) (t : Nat) (name : String) : s.threads t = .missing name →
      Step s (.mark t) (s.mark t name)
  /-- There is no directory to install to, or it cannot be made: `false`. -/
  | giveUp (s : Process) (t : Nat) (name : String) : s.threads t = .marked name → Step s (.giveUp t) (s.setThread t .idle)
  | install (s : Process) (t : Nat) (name : String) : s.threads t = .marked name →
      Step s (.install t) (s.install t name)
  /-- With a grammar or without one. -/
  | finish (s : Process) (t : Nat) (name : String) : s.threads t = .installing name →
      Step s (.finish t) (s.setThread t .idle)

/-- Runs whose steps are all of a kind. -/
inductive Reachable (kind : Process → Act → Prop) : Process → Prop
  | start : Reachable kind .start
  | step {s s' : Process} {a : Act} : Reachable kind s → Step s a s' → kind s a → Reachable kind s'

/-- No thread looks a language up while another has found it missing and is to mark it. -/
def Apart (s : Process) : Act → Prop
  | .check _ name => ∀ t, s.threads t ≠ .missing name
  | _ => True

/-! ## The invariant -/

/-- On the way to an installation. -/
def Pending (phase : Phase) (name : String) : Prop := phase = .missing name ∨ phase = .marked name

structure Inv (s : Process) : Prop where
  nodup : s.installs.Nodup
  tried : ∀ name ∈ s.installs, name ∈ s.attempted
  /-- One thread at most is on the way to a language's installation. -/
  alone : ∀ t t' name, Pending (s.threads t) name → Pending (s.threads t') name → t = t'
  missing : ∀ t name, s.threads t = .missing name → name ∉ s.attempted
  marked : ∀ t name, s.threads t = .marked name → name ∈ s.attempted ∧ name ∉ s.installs

theorem setThread_threads (s : Process) (t t' : Nat) (phase : Phase) :
    (s.setThread t phase).threads t' = if t' = t then phase else s.threads t' := Function.update_apply ..

theorem mark_threads (s : Process) (t t' : Nat) (name : String) :
    (s.mark t name).threads t' = if t' = t then .marked name else s.threads t' := Function.update_apply ..

theorem mark_attempted (s : Process) (t : Nat) (name : String) : (s.mark t name).attempted = s.attempted ++ [name] := rfl

theorem install_threads (s : Process) (t t' : Nat) (name : String) :
    (s.install t name).threads t' = if t' = t then .installing name else s.threads t' := Function.update_apply ..

section Pending

variable {name other : String}

@[simp] theorem not_pending_idle : ¬ Pending .idle other := by simp [Pending]

@[simp] theorem not_pending_installing : ¬ Pending (.installing name) other := by simp [Pending]

@[simp] theorem pending_missing_iff : Pending (.missing name) other ↔ name = other := by simp [Pending]

@[simp] theorem pending_marked_iff : Pending (.marked name) other ↔ name = other := by simp [Pending]

end Pending

theorem start_inv : Inv .start where
  nodup := List.nodup_nil
  tried _ h := absurd h List.not_mem_nil
  alone _ _ _ h := absurd h not_pending_idle
  missing _ _ h := by cases h
  marked _ _ h := by cases h

/-- A thread goes on where no other is on the way to the same language. -/
theorem Inv.alone_setThread {s : Process} (h : Inv s) {t : Nat} {phase : Phase}
    (hphase : ∀ name, Pending phase name → ∀ t', t' ≠ t → ¬ Pending (s.threads t') name) (t₁ t₂ : Nat) (name : String)
    (h₁ : Pending ((s.setThread t phase).threads t₁) name) (h₂ : Pending ((s.setThread t phase).threads t₂) name) :
    t₁ = t₂ := by
  rw [setThread_threads] at h₁ h₂
  split at h₁
  · rename_i ht₁
    split at h₂
    · rename_i ht₂
      rw [ht₁, ht₂]
    · rename_i ht₂
      exact absurd h₂ (hphase name h₁ t₂ ht₂)
  · rename_i ht₁
    split at h₂
    · exact absurd h₁ (hphase name h₂ t₁ ht₁)
    · exact h.alone t₁ t₂ name h₁ h₂

/-- A thread that ends its call. -/
theorem Inv.leave {s : Process} (h : Inv s) (t : Nat) {phase : Phase} (hphase : ∀ name, ¬ Pending phase name) :
    Inv (s.setThread t phase) where
  nodup := h.nodup
  tried := h.tried
  alone := h.alone_setThread fun name hpending => absurd hpending (hphase name)
  missing t' name hmissing := by
    rw [setThread_threads] at hmissing
    split at hmissing
    · exact absurd (.inl hmissing) (hphase name)
    · exact h.missing t' name hmissing
  marked t' name hmarked := by
    rw [setThread_threads] at hmarked
    split at hmarked
    · exact absurd (.inr hmarked) (hphase name)
    · exact h.marked t' name hmarked

/-- A language that nobody has tried, and nobody is about to mark. -/
theorem Inv.enter {s : Process} (h : Inv s) {t : Nat} {name : String} (hnot : name ∉ s.attempted)
    (hapart : ∀ t', s.threads t' ≠ .missing name) : Inv (s.setThread t (.missing name)) := by
  have hnobody : ∀ t', ¬ Pending (s.threads t') name := by
    intro t' hpending
    rcases hpending with hmissing | hmarked
    · exact hapart t' hmissing
    · exact hnot (h.marked t' name hmarked).1
  refine ⟨h.nodup, h.tried, h.alone_setThread fun other hpending t' _ => ?_, ?_, ?_⟩
  · rw [← pending_missing_iff.mp hpending]
    exact hnobody t'
  · intro t' other hmissing
    rw [setThread_threads] at hmissing
    split at hmissing
    · cases hmissing
      exact hnot
    · exact h.missing t' other hmissing
  · intro t' other hmarked
    rw [setThread_threads] at hmarked
    split at hmarked
    · cases hmarked
    · exact h.marked t' other hmarked

theorem Inv.mark {s : Process} (h : Inv s) {t : Nat} {name : String} (hmissing : s.threads t = .missing name) :
    Inv (s.mark t name) := by
  have hnot : name ∉ s.attempted := h.missing t name hmissing
  have hother : ∀ t', t' ≠ t → ¬ Pending (s.threads t') name := fun t' hne hpending =>
    hne (h.alone t' t name hpending (.inl hmissing))
  have halone : ∀ t₁ t₂ other, Pending ((s.mark t name).threads t₁) other → Pending ((s.mark t name).threads t₂) other →
      t₁ = t₂ := h.alone_setThread fun other hpending t' hne => by
    rw [← pending_marked_iff.mp hpending]
    exact hother t' hne
  refine ⟨h.nodup, fun other hmem => List.mem_append_left _ (h.tried other hmem), halone, ?_, ?_⟩
  · intro t' other hmissing'
    rw [mark_threads] at hmissing'
    split at hmissing'
    · cases hmissing'
    · rename_i hne
      rw [mark_attempted, List.mem_append, List.mem_singleton, not_or]
      refine ⟨h.missing t' other hmissing', fun heq => hother t' hne ?_⟩
      rw [← heq]
      exact .inl hmissing'
  · intro t' other hmarked
    rw [mark_threads] at hmarked
    rw [mark_attempted]
    split at hmarked
    · cases hmarked
      exact ⟨List.mem_append_right _ (List.mem_singleton_self _), fun hmem => hnot (h.tried _ hmem)⟩
    · obtain ⟨htried, hinstalls⟩ := h.marked t' other hmarked
      exact ⟨List.mem_append_left _ htried, hinstalls⟩

theorem Inv.install {s : Process} (h : Inv s) {t : Nat} {name : String} (hmarked : s.threads t = .marked name) :
    Inv (s.install t name) := by
  have hleft : Inv (s.setThread t (.installing name)) := h.leave t fun _ => not_pending_installing
  obtain ⟨htried, hnot⟩ := h.marked t name hmarked
  refine ⟨?_, ?_, hleft.alone, hleft.missing, ?_⟩
  · exact List.nodup_append.mpr ⟨h.nodup, List.nodup_singleton name, fun other hother _ hname heq =>
      hnot (List.mem_singleton.mp hname ▸ heq ▸ hother)⟩
  · intro other hmem
    rcases List.mem_append.mp hmem with hmem | hmem
    · exact h.tried other hmem
    · rw [List.mem_singleton.mp hmem]
      exact htried
  · intro t' other hmarked'
    obtain ⟨htried', hnot'⟩ := hleft.marked t' other hmarked'
    refine ⟨htried', fun hmem => ?_⟩
    rcases List.mem_append.mp hmem with hmem | hmem
    · exact hnot' hmem
    · -- another thread would be on the way to the same language
      obtain rfl := List.mem_singleton.mp hmem
      rw [install_threads] at hmarked'
      split at hmarked'
      · cases hmarked'
      · rename_i hne
        exact hne (h.alone t' t other (.inr hmarked') (.inr hmarked))

theorem step_inv {s s' : Process} {a : Act} (h : Inv s) (hstep : Step s a s') (hapart : Apart s a) : Inv s' := by
  cases hstep with
  | found t name _ _ => exact h
  | notFound t name _ hnot => exact h.enter hnot hapart
  | mark t name hmissing => exact h.mark hmissing
  | giveUp t name _ => exact h.leave t fun _ => not_pending_idle
  | install t name hmarked => exact h.install hmarked
  | finish t name _ => exact h.leave t fun _ => not_pending_idle

/-- In every run, of any number of threads, in which no thread looks a language up while
    another is about to mark it, no language is installed twice. -/
theorem attempted_once {s : Process} (h : Reachable Apart s) : s.installs.Nodup := by
  have hinv : Inv s := by
    induction h with
    | start => exact start_inv
    | step _ hstep hapart ih => exact step_inv ih hstep hapart
  exact hinv.nodup

/-! ## Two threads -/

/-- Two threads have found that there is no grammar for Zig. -/
def bothMissing : Process := (Process.start.setThread 1 (.missing "zig")).setThread 2 (.missing "zig")

def bothInstalled : Process := (((bothMissing.mark 1 "zig").mark 2 "zig").install 1 "zig").install 2 "zig"

theorem two_threads_install_one_language :
    Reachable (fun _ _ => True) bothInstalled ∧ bothInstalled.installs = ["zig", "zig"] ∧ ¬ bothInstalled.installs.Nodup := by
  have h₁ : Reachable (fun _ _ => True) (Process.start.setThread 1 (.missing "zig")) :=
    .step .start (.notFound _ 1 "zig" rfl (by decide)) trivial
  have h₂ := h₁.step (.notFound _ 2 "zig" rfl (by decide)) trivial
  have h₃ := h₂.step (.mark _ 1 "zig" rfl) trivial
  have h₄ := h₃.step (.mark _ 2 "zig" rfl) trivial
  have h₅ := h₄.step (.install _ 1 "zig" rfl) trivial
  exact ⟨h₅.step (.install _ 2 "zig" rfl) trivial, rfl, by decide⟩

/-- The second thread comes when the first has marked the language. -/
theorem attempted_once_marked : (((Process.start.setThread 1 (.missing "zig")).mark 1 "zig").install 1 "zig").installs.Nodup := by
  have h₁ : Reachable Apart (Process.start.setThread 1 (.missing "zig")) :=
    .step .start (.notFound _ 1 "zig" rfl (by decide)) fun t => nofun
  have h₂ := h₁.step (.mark _ 1 "zig" rfl) trivial
  have h₃ := h₂.step (.found _ 2 "zig" rfl (by decide)) fun t hmissing => by
    rw [mark_threads, setThread_threads] at hmissing
    split at hmissing <;> cases hmissing
  exact attempted_once (h₃.step (.install _ 1 "zig" rfl) trivial)

end CodeQuery.Parse.AutoInstall
