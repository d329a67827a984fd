import GinnOS.Scheduler.Calls

/-! # Zombies and their parents

A process that exited stays in the table until its parent waits for it.  `Tree` says that every
process with a parent has one in the table that has not exited.  It lasts as long as
processes exit only after their children are gone and process identifiers do not run out;
`usermode_exit` itself does not look for children (`child_outlives_parent`).
-/

namespace GinnOS.Scheduler

open Lib List
open Sched hiding dying procs_modify

variable {s s' : Sched} {xs : List Ref} {ws : Nat → List Ref} {p : Ref} {i j : Fin processMax}

def Sched.Used (s : Sched) (i : Fin processMax) : Prop := (s.procs (.slot i)).state ≠ .unused
  deriving Decidable

structure Tree (s : Sched) : Prop where
  kernel : s.current = none → s.shellChild = none
  distinct : ∀ i j, s.Used i → s.Used j → (s.procs (.slot i)).pid = (s.procs (.slot j)).pid → i = j
  below : ∀ i, s.Used i → (s.procs (.slot i)).pid.toNat < s.nextPid.toNat
  positive : 0 < s.nextPid.toNat
  parent : ∀ i, s.Used i → (s.procs (.slot i)).parentPid ≠ 0 → s.active = true ∧
    ∃ j, s.Used j ∧ (s.procs (.slot j)).state ≠ .zombie ∧ (s.procs (.slot j)).pid = (s.procs (.slot i)).parentPid
  child : ∀ i, (s.procs (.slot i)).state = .zombie → (s.procs (.slot i)).parentPid ≠ 0

def Sched.Childless (s : Sched) (i : Fin processMax) : Prop :=
  ∀ j, s.Used j → (s.procs (.slot j)).parentPid ≠ (s.procs (.slot i)).pid
  deriving Decidable

theorem Sched.processGet_pid
    (distinct : ∀ i j, s.Used i → s.Used j → (s.procs (.slot i)).pid = (s.procs (.slot j)).pid → i = j)
    (used : s.Used i) (real : (s.procs (.slot i)).pid ≠ 0) : s.processGet (s.procs (.slot i)).pid = some (.slot i) := by
  have found : ((finRange processMax).find? fun j =>
      (s.procs (.slot j)).state ≠ .unused && (s.procs (.slot j)).pid = (s.procs (.slot i)).pid).isSome := by
    rw [find?_isSome]
    refine ⟨i, mem_finRange i, ?_⟩
    simpa [Used] using used
  obtain ⟨j, isFirst⟩ := Option.isSome_iff_exists.mp found
  have known := find?_some isFirst
  simp only [Bool.and_eq_true, decide_eq_true_eq] at known
  rw [processGet, if_neg real, isFirst, distinct j i known.1 used known.2, Option.map_some]

theorem Tree.kept (tree : Tree s) (kept : Stays s s') : Tree s' := by
  have used (i : Fin processMax) : s'.Used i ↔ s.Used i := not_congr (kept.unused (.slot i))
  refine ⟨fun none => ?_, fun i j usedI usedJ same => ?_, fun i usedI => ?_, ?_, fun i usedI real => ?_, fun i zombie => ?_⟩
  · rw [kept.shellChild]
    by_contra shell
    exact shell (tree.kernel (by
      by_contra current
      exact kept.current current none))
  · rw [kept.pid, kept.pid] at same
    exact tree.distinct i j ((used i).mp usedI) ((used j).mp usedJ) same
  · rw [kept.pid, kept.nextPid]
    exact tree.below i ((used i).mp usedI)
  · rw [kept.nextPid]
    exact tree.positive
  · rw [kept.parentPid] at real ⊢
    obtain ⟨active, j, usedJ, alive, pid⟩ := tree.parent i ((used i).mp usedI) real
    refine ⟨kept.active active, j, (used j).mpr usedJ, fun zombie => alive ((kept.zombie _).mp zombie), ?_⟩
    rw [kept.pid, pid]
  · rw [kept.parentPid]
    exact tree.child i ((kept.zombie _).mp zombie)

/-! ## Destroying -/

/-- `process_destroy` after the descriptors are closed. -/
def Sched.vanish (s : Sched) (p : Ref) : Sched := s.modify p fun pcb => { pcb with state := .unused, pid := 0 }

theorem Sched.procs_vanish (s : Sched) (p p' : Ref) :
    (s.vanish p).procs p' = if p' = p then { s.procs p with state := .unused, pid := 0 } else s.procs p' :=
  s.procs_modify p p' _

theorem Sched.used_vanish (s : Sched) (i j : Fin processMax) : (s.vanish (.slot i)).Used j ↔ s.Used j ∧ j ≠ i := by
  rw [Used, procs_vanish]
  by_cases same : j = i
  · simp [same]
  · rw [if_neg fun isSame => same (Ref.slot.inj isSame)]
    exact ⟨fun used => ⟨used, same⟩, And.left⟩

theorem Tree.vanish (tree : Tree s) (childless : s.Childless i) : Tree (s.vanish (.slot i)) := by
  have used := s.used_vanish i
  have other {j : Fin processMax} (different : j ≠ i) : (s.vanish (.slot i)).procs (.slot j) = s.procs (.slot j) := by
    rw [procs_vanish, if_neg fun same => different (Ref.slot.inj same)]
  refine ⟨tree.kernel, fun j k usedJ usedK same => ?_, fun j usedJ => ?_, tree.positive, fun j usedJ real => ?_, fun j zombie => ?_⟩
  · obtain ⟨usedJ, notJ⟩ := (used j).mp usedJ
    obtain ⟨usedK, notK⟩ := (used k).mp usedK
    rw [other notJ, other notK] at same
    exact tree.distinct j k usedJ usedK same
  · obtain ⟨usedJ, notJ⟩ := (used j).mp usedJ
    rw [other notJ]
    exact tree.below j usedJ
  · obtain ⟨usedJ, notJ⟩ := (used j).mp usedJ
    rw [other notJ] at real ⊢
    obtain ⟨active, k, usedK, alive, pid⟩ := tree.parent j usedJ real
    have notK : k ≠ i := fun same => childless j usedJ (same ▸ pid.symm)
    exact ⟨active, k, (used k).mpr ⟨usedK, notK⟩, by rw [other notK]; exact alive, by rw [other notK, pid]⟩
  · have notJ : j ≠ i := by
      rintro rfl
      rw [procs_vanish, if_pos rfl] at zombie
      cases zombie
    rw [other notJ] at zombie ⊢
    exact tree.child j zombie

theorem Tree.childless (tree : Tree s) (zombie : (s.procs (.slot i)).state = .zombie)
    (pid : (s.procs (.slot i)).pid ≠ 0) : s.Childless i := by
  intro j used same
  obtain ⟨_, k, usedK, alive, isParent⟩ := tree.parent j used (same ▸ pid)
  have isSame := tree.distinct k i usedK (by rw [Used, zombie]; nofun) (isParent.trans same)
  exact alive (isSame ▸ zombie)

theorem Sched.current_wakeFrom (fuel : Nat) (s : Sched) (p : Option Ref) : (s.wakeFrom fuel p).current = s.current := by
  induction fuel generalizing s p with
  | zero => rfl
  | succ fuel ih =>
    cases p with
    | none => rfl
    | some p => exact ih _ _

theorem Ok.wakes (ok : Ok s xs ws) (wakes : List Nat) :
    (∃ ys ws', Ok (wakes.foldl waitQueueWakeAll s) ys ws') ∧ Kept s (wakes.foldl waitQueueWakeAll s) ∧
      (wakes.foldl waitQueueWakeAll s).current = s.current := by
  induction wakes generalizing s xs ws with
  | nil => exact ⟨⟨xs, ws, ok⟩, .refl s, rfl⟩
  | cons q wakes ih =>
    obtain ⟨⟨ys, ws', woken⟩, kept⟩ := ok.wakeAll q
    obtain ⟨done, kept', current⟩ := ih woken
    exact ⟨done, kept.trans kept', current.trans (current_wakeFrom _ _ _)⟩

theorem Core.vanish (core : Core s xs ws none) (off : Ref.slot i ∉ xs) (notBlocked : (s.procs (.slot i)).state ≠ .blocked)
    (rooted : s.current = some (.slot i) → (s.procs (.slot i)).parentPid ≠ 0 ∨ s.shellChild = some (.slot i)) :
    Core (s.vanish (.slot i)) xs ws none := by
  have noChild : (s.procs (.slot i)).waitForPid = 0 := by
    by_contra waits
    exact notBlocked ((core.legal _).waitFor waits)
  have moved : Core (s.vanish (.slot i)) xs ws (some (.slot i)) :=
    core.modify nofun off (core.not_waiting notBlocked) ⟨fun waits => absurd noChild waits, nofun, nofun,
      fun _ there => absurd rfl there, fun _ reason => rooted (reason.resolve_right nofun)⟩
  refine moved.fill fun blocked => ?_
  rw [procs_vanish, if_pos rfl] at blocked
  cases blocked

theorem Ok.vanish (ok : Ok s xs ws) (off : Ref.slot i ∉ xs) (notBlocked : (s.procs (.slot i)).state ≠ .blocked)
    (notRunning : (s.procs (.slot i)).state ≠ .running) : Ok (s.vanish (.slot i)) xs ws := by
  refine ⟨ok.toCore.vanish off notBlocked fun is => absurd (ok.current _ is) notRunning, fun p is => ?_⟩
  have running : (s.procs p).state = .running := ok.current p is
  rw [procs_vanish, if_neg fun same : p = .slot i => notRunning (same ▸ running)]
  exact running

theorem Tree.reap (tree : Tree s) (ok : Ok s xs ws) (zombie : (s.procs (.slot i)).state = .zombie) (wakes : List Nat) :
    Tree (s.processDestroy (.slot i) wakes) ∧ ∃ ys ws', Ok (s.processDestroy (.slot i) wakes) ys ws' := by
  obtain ⟨⟨ys, ws', woken⟩, kept, _⟩ := ok.wakes wakes
  have later := tree.kept kept.toStays
  have zombie' := (kept.zombie (.slot i)).mpr zombie
  have pid := (woken.legal (.slot i)).pid nofun (by rw [zombie']; nofun)
  refine ⟨later.vanish (later.childless zombie' pid), ys, ws', woken.vanish (woken.not_queued ?_) ?_ ?_⟩
  all_goals
    rw [zombie']
    nofun

theorem Tree.leave (tree : Tree s) (ok : Ok s xs ws) (is : s.current = some (.slot i)) (shell : s.shellChild = some (.slot i))
    (childless : s.Childless i) (wakes : List Nat) :
    Tree (s.leaveShell wakes) ∧ ∃ ys ws', Ok (s.leaveShell wakes) ys ws' := by
  obtain ⟨⟨ys, ws', woken⟩, kept, current⟩ := ok.wakes wakes
  have left : s.leaveShell wakes = { (wakes.foldl waitQueueWakeAll s).vanish (.slot i) with current := none, shellChild := none } := by
    simp only [leaveShell, shell]
    rfl
  rw [left]
  generalize wakes.foldl waitQueueWakeAll s = t at woken kept current ⊢
  have childless' : t.Childless i := fun j used same => by
    rw [kept.parentPid, kept.pid] at same
    exact childless j (fun gone => used ((kept.unused _).mpr gone)) same
  have running : (t.procs (.slot i)).state = .running := woken.current _ (current.trans is)
  have gone := (tree.kept kept.toStays).vanish childless'
  have off : Ref.slot i ∉ ys := woken.not_queued (by rw [running]; nofun)
  have core := woken.toCore.vanish off (by rw [running]; nofun) fun _ => .inr (kept.shellChild.trans shell)
  have shell' : (t.vanish (.slot i)).shellChild = some (.slot i) := kept.shellChild.trans shell
  refine ⟨⟨fun _ => rfl, gone.distinct, gone.below, gone.positive, gone.parent, gone.child⟩, ys, ws', ?_, nofun⟩
  -- nobody else was started by the kernel shell, and nobody else runs
  have notShell {p : Ref} (different : p ≠ .slot i) (rooted : ((t.vanish (.slot i)).procs p).parentPid ≠ 0 ∨
      (t.vanish (.slot i)).shellChild = some p) : ((t.vanish (.slot i)).procs p).parentPid ≠ 0 :=
    rooted.resolve_right fun isShell => different (Option.some.inj (isShell.symm.trans shell'))
  refine { core with queued := fun p inside => ?_, legal := fun p => ?_ }
  · obtain ⟨notIdle, isReady, rooted⟩ := core.queued p inside
    exact ⟨notIdle, isReady, .inl (notShell (fun same => off (same ▸ inside)) rooted)⟩
  · obtain ⟨waitFor, runs, idle, pid, rooted⟩ := core.legal p
    refine ⟨waitFor, fun isRunning => .inl ?_, idle, pid, fun notIdle reason => .inl ?_⟩
    · rcases runs isRunning with isIdle | isCurrent
      · exact isIdle
      · have same : p = .slot i := Option.some.inj (isCurrent.symm.trans (current.trans is))
        rw [same, procs_vanish, if_pos rfl] at isRunning
        cases isRunning
    · have blocked := reason.resolve_left nofun
      refine notShell (fun same => ?_) (rooted notIdle (.inr blocked))
      rw [same, procs_vanish, if_pos rfl] at blocked
      cases blocked

/-! ## Exit -/

theorem Tree.dying (tree : Tree s) (used : s.Used i) (childless : s.Childless i) (child : (s.procs (.slot i)).parentPid ≠ 0)
    (code : Int32) : Tree (s.dying (.slot i) code) := by
  have same : SameProcs s (s.dying (.slot i) code) := .modify rfl rfl used nofun
  have other {j : Fin processMax} (different : j ≠ i) : (s.dying (.slot i) code).procs (.slot j) = s.procs (.slot j) := by
    rw [Sched.dying, Sched.procs_modify, if_neg fun isSame => different (Ref.slot.inj isSame)]
  have usedIff (j : Fin processMax) : (s.dying (.slot i) code).Used j ↔ s.Used j := not_congr (same.unused (.slot j))
  refine ⟨tree.kernel, fun j k usedJ usedK isSame => ?_, fun j usedJ => ?_, tree.positive, fun j usedJ real => ?_, fun j zombie => ?_⟩
  · rw [same.pid, same.pid] at isSame
    exact tree.distinct j k ((usedIff j).mp usedJ) ((usedIff k).mp usedK) isSame
  · rw [same.pid]
    exact tree.below j ((usedIff j).mp usedJ)
  · rw [same.parentPid] at real ⊢
    obtain ⟨active, k, usedK, alive, pid⟩ := tree.parent j ((usedIff j).mp usedJ) real
    have notK : k ≠ i := fun isSame => childless j ((usedIff j).mp usedJ) (isSame ▸ pid.symm)
    exact ⟨active, k, (usedIff k).mpr usedK, by rw [other notK]; exact alive, by rw [other notK, pid]⟩
  · rw [same.parentPid]
    by_cases here : j = i
    · rw [here]
      exact child
    · rw [other here] at zombie
      exact tree.child j zombie

theorem Tree.exit (tree : Tree s) (ok : Ok s xs ws) (is : s.current = some (.slot i)) (childless : s.Childless i)
    (code : Int32) (wakes : List Nat) : Tree (s.usermodeExit code wakes) ∧ ∃ ys ws', Ok (s.usermodeExit code wakes) ys ws' := by
  have running := ok.current _ is
  have used : s.Used i := by
    rw [Used, running]
    nofun
  by_cases parent : (s.procs (.slot i)).parentPid = 0
  · have shell : s.shellChild = some (.slot i) := ((ok.running_free running).rooted nofun).resolve_left (not_not.mpr parent)
    simp only [usermodeExit, is, if_pos parent]
    exact tree.leave ok is shell childless wakes
  · obtain ⟨⟨ys, done⟩, kept⟩ := ok.exit (tree.parent i used parent).1 is parent code wakes
    exact ⟨(tree.dying used childless parent code).kept kept.toStays, ys, ws, done⟩

/-! ## Creation -/

/-- The process in the slot `i` is new, and the others are as before. -/
structure Born (s s' : Sched) (i : Fin processMax) : Prop where
  others : ∀ j, j ≠ i → s'.procs (.slot j) = s.procs (.slot j)
  free : ¬ s.Used i
  pid : (s'.procs (.slot i)).pid = s.nextPid
  state : (s'.procs (.slot i)).state ≠ .zombie
  nextPid : s'.nextPid = s.nextPid + 1
  active : s.active = true → s'.active = true
  kernel : s'.current = none → s'.shellChild = none

theorem Tree.born (tree : Tree s) (born : Born s s' i) (room : s.nextPid.toNat + 1 < 4294967296)
    (parent : (s'.procs (.slot i)).parentPid ≠ 0 → s'.active = true ∧
      ∃ j, s.Used j ∧ (s.procs (.slot j)).state ≠ .zombie ∧ (s.procs (.slot j)).pid = (s'.procs (.slot i)).parentPid) :
    Tree s' := by
  have used {j : Fin processMax} (different : j ≠ i) : s'.Used j ↔ s.Used j := by rw [Used, Used, born.others j different]
  have counted : s'.nextPid.toNat = s.nextPid.toNat + 1 := by
    rw [born.nextPid, UInt32.toNat_add]
    exact Nat.mod_eq_of_lt room
  -- identifiers of the others are smaller
  have fresh {j : Fin processMax} (different : j ≠ i) (usedJ : s'.Used j) : (s'.procs (.slot j)).pid ≠ (s'.procs (.slot i)).pid := by
    intro same
    have below := tree.below j ((used different).mp usedJ)
    rw [← born.others j different, same, born.pid] at below
    omega
  refine ⟨born.kernel, fun j k usedJ usedK same => ?_, fun j usedJ => ?_, by omega, fun j usedJ real => ?_, fun j zombie => ?_⟩
  · by_cases newJ : j = i
    · by_cases newK : k = i
      · rw [newJ, newK]
      · exact absurd (same.symm.trans (by rw [newJ])) (fresh newK usedK)
    · by_cases newK : k = i
      · exact absurd (same.trans (by rw [newK])) (fresh newJ usedJ)
      · rw [born.others j newJ, born.others k newK] at same
        exact tree.distinct j k ((used newJ).mp usedJ) ((used newK).mp usedK) same
  · by_cases newJ : j = i
    · rw [newJ, born.pid]
      omega
    · rw [born.others j newJ]
      have below := tree.below j ((used newJ).mp usedJ)
      omega
  · have keep {k : Fin processMax} (usedK : s.Used k) : k ≠ i := fun same => born.free (same ▸ usedK)
    by_cases newJ : j = i
    · rw [newJ] at real ⊢
      obtain ⟨active, k, usedK, alive, pid⟩ := parent real
      exact ⟨active, k, (used (keep usedK)).mpr usedK, by rw [born.others k (keep usedK)]; exact alive,
        by rw [born.others k (keep usedK), pid]⟩
    · rw [born.others j newJ] at real ⊢
      obtain ⟨active, k, usedK, alive, pid⟩ := tree.parent j ((used newJ).mp usedJ) real
      exact ⟨born.active active, k, (used (keep usedK)).mpr usedK, by rw [born.others k (keep usedK)]; exact alive,
        by rw [born.others k (keep usedK), pid]⟩
  · by_cases newJ : j = i
    · rw [newJ] at zombie
      exact absurd zombie born.state
    · rw [born.others j newJ] at zombie ⊢
      exact tree.child j zombie

theorem Born.create (tree : Tree s) (free : (s.procs (.slot i)).state = .unused) : Born s (s.processCreate i) i := by
  have new : (s.processCreate i).procs (.slot i) = ⟨s.nextPid, 0, .ready, 0, 0⟩ := by
    rw [procs_processCreate, if_pos rfl]
  refine ⟨fun j different => ?_, not_not.mpr free, by rw [new], by rw [new]; nofun, rfl, id, tree.kernel⟩
  rw [procs_processCreate, if_neg fun same => different (Ref.slot.inj same)]

theorem Ok.kernelExec (ok : Ok s xs ws) (isKernel : s.current = none) (noShell : s.shellChild = none)
    (isReady : (s.procs (.slot i)).state = .ready) (off : Ref.slot i ∉ xs) (pid : (s.procs (.slot i)).pid ≠ 0) :
    Ok { s.setState (.slot i) .running with current := some (.slot i), shellChild := some (.slot i) } xs ws := by
  have noChild : (s.procs (.slot i)).waitForPid = 0 := by
    by_contra waits
    exact absurd (isReady.symm.trans ((ok.legal _).waitFor waits)) nofun
  -- everybody else has a parent
  have rooted {p : Ref} (known : (s.procs p).parentPid ≠ 0 ∨ s.shellChild = some p) : (s.procs p).parentPid ≠ 0 :=
    known.resolve_right (by rw [noShell]; nofun)
  have begun : Core { s with current := some (.slot i), shellChild := some (.slot i) } xs ws none := by
    refine { ok.toCore with queued := fun p inside => ?_, legal := fun p => ?_ }
    · obtain ⟨notIdle, state, known⟩ := ok.queued p inside
      exact ⟨notIdle, state, .inl (rooted known)⟩
    · obtain ⟨waitFor, runs, idle, pid, known⟩ := ok.legal p
      refine ⟨waitFor, fun running => .inl ?_, idle, pid, fun notIdle reason => ?_⟩
      · exact (runs running).resolve_right (by rw [isKernel]; nofun)
      · rcases reason with isNew | blocked
        · exact .inr isNew
        · exact .inl (rooted (known notIdle (.inr blocked)))
  have free : Free { s with current := some (.slot i), shellChild := some (.slot i) } ws (.slot i) :=
    ⟨ok.not_waiting (by rw [isReady]; nofun), noChild, fun _ => pid, fun _ => .inr rfl⟩
  have alone (p : Ref) (running : (s.procs p).state = .running) : p = .idle :=
    ((ok.legal p).running running).resolve_right (by rw [isKernel]; nofun)
  have started := begun.dispatch off free alone
  exact { started with }

theorem Tree.exec (tree : Tree s) (ok : Ok s xs ws) (room : s.nextPid.toNat + 1 < 4294967296)
    (caller : s.current = none ∨ ∃ i, s.current = some (.slot i)) (outcome : ExecOutcome) :
    Tree (s.execProgram outcome).2 ∧ ∃ ys ws', Ok (s.execProgram outcome).2 ys ws' := by
  have nextPid : s.nextPid ≠ 0 := by
    intro zero
    have positive := tree.positive
    rw [zero] at positive
    exact absurd positive (by decide)
  cases isSlot : s.unusedSlot with
  | none =>
    rw [execProgram, isSlot]
    exact ⟨tree, xs, ws, ok⟩
  | some j =>
    have free := unusedSlot_some isSlot
    have born := Born.create tree free
    have created := ok.create free nextPid
    have new : (s.processCreate j).procs (.slot j) = ⟨s.nextPid, 0, .ready, 0, 0⟩ := by
      rw [procs_processCreate, if_pos rfl]
    have off : Ref.slot j ∉ xs := ok.not_queued (by rw [free]; simp)
    have tree₁ : Tree (s.processCreate j) := tree.born born room fun real => absurd (by rw [new]) real
    cases outcome with
    | noMemory =>
      rw [execProgram, isSlot]
      exact ⟨tree₁, xs, ws, created⟩
    | badFile =>
      have childless : (s.processCreate j).Childless j := by
        intro k used same
        by_cases isNew : k = j
        · rw [isNew, new] at same
          exact nextPid same.symm
        · rw [born.others k isNew, born.pid] at same
          have usedK : s.Used k := by rwa [Used, born.others k isNew] at used
          obtain ⟨_, p, usedP, _, pid⟩ := tree.parent k usedK (same ▸ nextPid)
          have below := tree.below p usedP
          rw [pid, same] at below
          omega
      rw [execProgram, isSlot]
      exact ⟨tree₁.vanish childless, xs, ws, created.vanish off (by rw [new]; simp) (by rw [new]; simp)⟩
    | loaded =>
      rcases caller with isKernel | ⟨i, is⟩
      · have started := created.kernelExec isKernel (tree.kernel isKernel) (by rw [new]) off (by rw [new]; exact nextPid)
        have shell : (s.execProgram .loaded).2 =
            { (s.processCreate j).setState (.slot j) .running with current := some (.slot j), shellChild := some (.slot j) } := by
          rw [execProgram, isSlot]
          simp only [isKernel]
        rw [shell]
        refine ⟨tree.born (i := j) ⟨fun k different => ?_, born.free, ?_, ?_, rfl, id, (by simp)⟩ room fun real => ?_, xs, ws, started⟩
        · rw [procs_setState, if_neg fun same => different (Ref.slot.inj same), born.others k different]
        · rw [procs_setState, if_pos rfl, new]
        · rw [procs_setState, if_pos rfl]
          simp
        · have none : (((s.processCreate j).setState (.slot j) .running).procs (.slot j)).parentPid = 0 := by
            rw [procs_setState, if_pos rfl, new]
          exact absurd none real
      · have running := ok.current _ is
        have procs := s.procs_loaded (i := j) (s.procs (.slot i)).pid
        rw [execProgram_loaded isSlot is]
        refine ⟨tree.born (i := j) ⟨fun k different => ?_, born.free, ?_, ?_, rfl, fun _ => rfl, ?_⟩ room fun _ => ⟨rfl, i, ?_, ?_, ?_⟩,
          _, ws, ok.loaded free nextPid (ok.current_pid is)⟩
        · rw [procs, if_neg fun same => different (Ref.slot.inj same)]
        · rw [procs, if_pos rfl]
        · rw [procs, if_pos rfl]
          simp
        · exact fun isNone => absurd (is.symm.trans isNone) (by simp)
        · rw [Used, running]
          simp
        · rw [running]
          simp
        · rw [procs, if_pos rfl]

/-! ## Waiting -/

theorem Tree.waitpid (tree : Tree s) (ok : Ok s xs ws) (is : s.current = some (.slot i)) (pid : UInt32) (wakes : List Nat) :
    Tree (s.sysWaitpid pid wakes).2 ∧ ∃ ys ws', Ok (s.sysWaitpid pid wakes).2 ys ws' := by
  cases found : s.processGet pid with
  | none =>
    simp only [sysWaitpid, is, found]
    exact ⟨tree, xs, ws, ok⟩
  | some child =>
    obtain ⟨_, ⟨j, rfl⟩, used, _⟩ := processGet_some found
    by_cases own : (s.procs (.slot j)).parentPid = (s.procs (.slot i)).pid
    · by_cases zombie : (s.procs (.slot j)).state = .zombie
      · simp only [sysWaitpid, is, found, ne_eq, own, not_true_eq_false, if_false, if_pos zombie]
        exact tree.reap ok zombie wakes
      · have active := (tree.parent j used (own ▸ ok.current_pid is)).1
        obtain ⟨⟨ys, done⟩, kept⟩ := ok.waitpid active is found own zombie wakes
        exact ⟨(tree.kept (.waitingFor (ok.current _ is) pid)).kept kept.toStays, ys, ws, done⟩
    · simp only [sysWaitpid, is, found, ne_eq, own, not_false_eq_true, if_true]
      exact ⟨tree, xs, ws, ok⟩

theorem Tree.resume (tree : Tree s) (ok : Ok s xs ws) (wakes : List Nat) :
    Tree (s.resumeWaitpid wakes).2 ∧ ∃ ys ws', Ok (s.resumeWaitpid wakes).2 ys ws' := by
  rw [resumeWaitpid]
  split
  · exact ⟨tree, xs, ws, ok⟩
  · next parent _ =>
    split
    · exact ⟨tree, xs, ws, ok⟩
    · have back : Stays s { s with inWaitpid := Function.update s.inWaitpid parent none } :=
        (Kept.refl s).toStays.congr rfl rfl rfl id id
      have tree' := tree.kept back
      have ok' : Ok { s with inWaitpid := Function.update s.inWaitpid parent none } xs ws := ⟨{ ok.toCore with }, ok.current⟩
      split
      · exact ⟨tree', xs, ws, ok'⟩
      · next child found =>
        obtain ⟨_, ⟨j, rfl⟩, _⟩ := processGet_some found
        split
        · next zombie => exact tree'.reap ok' zombie wakes
        · exact ⟨tree', xs, ws, ok'⟩

/-! ## Runs -/

/-- The process that makes calls, unless it is inside `sys_waitpid`. -/
def Sched.free (s : Sched) : Option (Fin processMax) := s.caller.filter fun i => s.inWaitpid (.slot i) = none

/-- The kernel shell or the current process makes the call, which is the rest of `sys_waitpid` if
that process is inside it.  Processes block only once the scheduler is active. -/
def Sched.Possible (s : Sched) : Op → Prop
  | .exec _ => s.current = none ∨ s.free ≠ none
  | .exit _ _ => s.free ≠ none
  | .waitpid _ _ => s.free ≠ none
  | .block _ => s.active = true ∧ s.free ≠ none
  | .resume _ => s.caller ≠ none ∧ s.free = none
  | _ => True

/-- Identifiers do not run out, and nobody exits before its children are gone. -/
def Sched.Careful (s : Sched) : Op → Prop
  | .exec _ => s.nextPid.toNat + 1 < 4294967296
  | .exit _ _ => ∀ i ∈ s.caller, s.Childless i
  | _ => True

instance (s : Sched) : (op : Op) → Decidable (s.Possible op)
  | .exec _ => inferInstanceAs (Decidable (_ ∨ _))
  | .exit _ _ | .waitpid _ _ => inferInstanceAs (Decidable (_ ≠ _))
  | .block _ | .resume _ => inferInstanceAs (Decidable (_ ∧ _))
  | .wakeOne _ | .wakeAll _ | .tick | .yield => isTrue trivial

instance (s : Sched) : (op : Op) → Decidable (s.Careful op)
  | .exec _ => inferInstanceAs (Decidable (_ < _))
  | .exit _ _ => inferInstanceAs (Decidable (∀ i ∈ s.caller, s.Childless i))
  | .waitpid _ _ | .block _ | .resume _ | .wakeOne _ | .wakeAll _ | .tick | .yield => isTrue trivial

def Sched.Orderly (s : Sched) (op : Op) : Prop := s.Possible op ∧ s.Careful op
  deriving Decidable

theorem Sched.caller_of_free (free : s.free ≠ none) : ∃ i ∈ s.caller, s.current = some (.slot i) := by
  obtain ⟨i, is⟩ := Option.ne_none_iff_exists'.mp free
  have calls := (Option.filter_eq_some_iff.mp is).1
  exact ⟨i, calls, current_of_caller calls⟩

theorem Tree.step {op : Op} {ans : Option Int32} (tree : Tree s) (ok : Ok s xs ws) (orderly : s.Orderly op)
    (stepped : s.step op = (ans, s')) : Tree s' ∧ ∃ ys ws', Ok s' ys ws' := by
  obtain rfl : (s.step op).2 = s' := congrArg Prod.snd stepped
  obtain ⟨possible, careful⟩ := orderly
  cases op with
  | exec outcome =>
    refine tree.exec ok careful (possible.imp id fun free => ?_) outcome
    obtain ⟨i, _, is⟩ := caller_of_free free
    exact ⟨i, is⟩
  | exit code wakes =>
    obtain ⟨i, calls, is⟩ := caller_of_free possible
    exact tree.exit ok is (careful i calls) code wakes
  | waitpid pid wakes =>
    obtain ⟨i, _, is⟩ := caller_of_free possible
    exact tree.waitpid ok is pid wakes
  | resume wakes => exact tree.resume ok wakes
  | block q =>
    obtain ⟨active, free⟩ := possible
    obtain ⟨i, _, is⟩ := caller_of_free free
    obtain ⟨⟨ys, done⟩, kept⟩ := ok.block active is q
    exact ⟨tree.kept kept.toStays, ys, _, done⟩
  | wakeOne q =>
    cases isList : ws q with
    | nil =>
      rw [step, ok.wakeOne_nil isList]
      exact ⟨tree, xs, ws, ok⟩
    | cons p rest =>
      obtain ⟨done, kept⟩ := ok.wakeOne isList
      exact ⟨tree.kept kept.toStays, _, _, done⟩
  | wakeAll q =>
    obtain ⟨done, kept⟩ := ok.wakeAll q
    exact ⟨tree.kept kept.toStays, done⟩
  | tick =>
    obtain ⟨⟨ys, done⟩, kept⟩ := ok.tick
    exact ⟨tree.kept kept.toStays, ys, ws, done⟩
  | yield =>
    obtain ⟨⟨ys, done⟩, kept⟩ := ok.yield
    exact ⟨tree.kept kept.toStays, ys, ws, done⟩

theorem Tree.initial : Tree initial := by
  have nobody (i : Fin processMax) : ¬ Scheduler.initial.Used i := not_not.mpr rfl
  refine ⟨fun _ => rfl, fun i _ used => absurd used (nobody i), fun i used => absurd used (nobody i), by decide,
    fun i used => absurd used (nobody i), nofun⟩

theorem Ok.initial : Ok initial [] fun _ => [] := by
  have state (p : Ref) : (Scheduler.initial.procs p).state = .unused ∨ p = .idle ∧ (Scheduler.initial.procs p).state = .ready := by
    cases p with
    | idle => exact .inr ⟨rfl, rfl⟩
    | slot i => exact .inl rfl
  have never {p : Ref} {st : ProcState} (is : (Scheduler.initial.procs p).state = st) : st = .unused ∨ st = .ready := by
    rcases state p with unused | ⟨_, ready⟩
    · exact .inl (is.symm.trans unused)
    · exact .inr (is.symm.trans ready)
  refine ⟨⟨Links.holds_empty, rfl, fun _ inside => absurd inside not_mem_nil, fun _ => .nil _,
    fun inside => absurd inside not_mem_nil, fun inside => absurd inside not_mem_nil, fun p _ blocked => ?_,
    fun p => ⟨fun waits => absurd ?_ waits, fun runs => ?_, fun isIdle => ?_, fun notIdle there => ?_, fun _ reason => ?_⟩, rfl⟩, nofun⟩
  · exact absurd (never blocked) (by decide)
  · cases p <;> rfl
  · exact absurd (never runs) (by decide)
  · rw [isIdle]
    exact .inl rfl
  · exact absurd ((state p).resolve_right fun isIdle => notIdle isIdle.1) there
  · rcases reason with isCurrent | blocked
    · cases isCurrent
    · exact absurd (never blocked) (by decide)

/-- In every run in which processes exit after their children, the parent of a zombie is there, has
not exited, and frees the slot of the zombie when it waits for it. -/
theorem zombies_can_be_reaped {trace : List (Op × Option Int32)} (run : Run Sched.step Sched.Orderly initial trace s)
    (zombie : (s.procs (.slot i)).state = .zombie) :
    ∃ j, s.processGet (s.procs (.slot i)).parentPid = some (.slot j) ∧ s.Used j ∧ (s.procs (.slot j)).state ≠ .zombie ∧
      (s.current = some (.slot j) → ∀ wakes, (s.step (.waitpid (s.procs (.slot i)).pid wakes)).1 = some (s.procs (.slot i)).exitCode ∧
        ¬ (s.step (.waitpid (s.procs (.slot i)).pid wakes)).2.Used i) := by
  obtain ⟨tree, xs, ws, ok⟩ : Tree s ∧ ∃ xs ws, Ok s xs ws := by
    refine run.invariant (I := fun s => Tree s ∧ ∃ xs ws, Ok s xs ws) (fun known orderly stepped => ?_) ⟨.initial, [], _, .initial⟩
    obtain ⟨tree, xs, ws, ok⟩ := known
    exact tree.step ok orderly stepped
  have used : s.Used i := by
    rw [Used, zombie]
    nofun
  have real := tree.child i zombie
  obtain ⟨_, j, usedJ, alive, pid⟩ := tree.parent i used real
  refine ⟨j, ?_, usedJ, alive, fun is wakes => ?_⟩
  · rw [← pid]
    exact processGet_pid tree.distinct usedJ (pid ▸ real)
  · have found := processGet_pid tree.distinct used ((ok.legal _).pid nofun used)
    simp only [step, sysWaitpid, is, found, ne_eq, pid, not_true_eq_false, if_false, if_pos zombie, true_and]
    show ¬ (vanish _ (.slot i)).Used i
    rw [used_vanish]
    exact fun both => both.2 rfl

/-- A process has a child, which exits. -/
def childExits : List Op := [.exec .loaded, .exec .loaded, .yield, .exit 5 []]

theorem zombies_can_be_reaped_sample :
    ∃ j, (execute Sched.step initial childExits).2.processGet 1 = some (.slot j) := by
  have orderly : AllAllowed step Orderly initial childExits := by decide +kernel
  have zombie : ((execute step initial childExits).2.procs (.slot ⟨1, by decide⟩)).state = .zombie := by decide +kernel
  have parent : ((execute step initial childExits).2.procs (.slot ⟨1, by decide⟩)).parentPid = 1 := by decide +kernel
  obtain ⟨j, found, _⟩ := zombies_can_be_reaped (Run.of_execute _ orderly) zombie
  rw [parent] at found
  exact ⟨j, found⟩

/-- A process has a child with a child.  The child exits and is reaped, then its child exits. -/
def childOutlives : List Op :=
  [.exec .loaded, .exec .loaded, .yield, .exec .loaded, .exit 0 [], .waitpid 2 [], .yield, .exit 0 []]

def outlived : Sched := (execute Sched.step initial childOutlives).2

/-- Nobody can wait for the last zombie any more. -/
theorem child_outlives_parent : ∃ trace, Run Sched.step Sched.Possible initial trace outlived ∧
    (outlived.procs (.slot ⟨2, by decide⟩)).state = .zombie ∧
    outlived.processGet (outlived.procs (.slot ⟨2, by decide⟩)).parentPid = none := by
  have possible : AllAllowed step Possible initial childOutlives := by decide +kernel
  exact ⟨_, Run.of_execute _ possible, by decide +kernel, by decide +kernel⟩

end GinnOS.Scheduler
