import GinnOS.Scheduler.Queues

/-! # The queues over whole runs

What creating, ending and waiting for processes does to the queues.  From there, every sequence of
calls and interrupts after the first child became ready keeps the representation
of the queues (`queues_stay_represented`).
-/

namespace GinnOS.Scheduler

open Lib List Function
open Sched hiding wakeParent

variable {s s' : Sched} {xs ys : List Ref} {ws : Nat → List Ref} {p : Ref} {i : Fin processMax}

theorem Sched.processGet_some {pid : UInt32} (found : s.processGet pid = some p) :
    pid ≠ 0 ∧ (∃ i, p = .slot i) ∧ (s.procs p).state ≠ .unused ∧ (s.procs p).pid = pid := by
  rw [processGet] at found
  split at found
  · cases found
  · next real =>
    obtain ⟨i, isFirst, rfl⟩ := Option.map_eq_some_iff.mp found
    have known := find?_some isFirst
    simp only [Bool.and_eq_true, decide_eq_true_eq] at known
    exact ⟨real, ⟨i, rfl⟩, known.1, known.2⟩

theorem Sched.unusedSlot_some (found : s.unusedSlot = some i) : (s.procs (.slot i)).state = .unused := by
  have known := find?_some found
  exact of_decide_eq_true known

/-! ## Creation -/

theorem Sched.procs_processCreate (s : Sched) (i : Fin processMax) (p : Ref) :
    (s.processCreate i).procs p = if p = .slot i then ⟨s.nextPid, 0, .ready, 0, 0⟩ else s.procs p := update_apply ..

theorem Ok.create (ok : Ok s xs ws) (free : (s.procs (.slot i)).state = .unused) (pid : s.nextPid ≠ 0) :
    Ok (s.processCreate i) xs ws := by
  have off : Ref.slot i ∉ xs := ok.not_queued (by rw [free]; nofun)
  have noWait : ∀ q, Ref.slot i ∉ ws q := ok.not_waiting (by rw [free]; nofun)
  have notCurrent : s.current ≠ some (.slot i) := fun is => absurd (free.symm.trans (ok.current _ is)) nofun
  have made : Core (s.modify (.slot i) fun _ => ⟨s.nextPid, 0, .ready, 0, 0⟩) xs ws none := by
    have moved : Core (s.modify (.slot i) fun _ => ⟨s.nextPid, 0, .ready, 0, 0⟩) xs ws (some (.slot i)) :=
      ok.modify nofun off noWait ⟨fun waits => absurd rfl waits, nofun, nofun, fun _ _ => pid,
        fun _ reason => absurd reason (not_or.mpr ⟨notCurrent, nofun⟩)⟩
    refine moved.fill fun blocked => ?_
    rw [procs_modify, if_pos rfl] at blocked
    cases blocked
  -- the links of a process on no list are zero already
  have next : update s.ready.next (.slot i) none = s.ready.next := by
    rw [← after_of_not_mem off, ← ok.ready.next, update_eq_self]
  have prev : update s.ready.prev (.slot i) none = s.ready.prev := by
    have absent : Ref.slot i ∉ xs.reverse := fun inside => off (mem_reverse.mp inside)
    rw [← after_of_not_mem absent, ← ok.ready.prev, update_eq_self]
  refine ⟨{ made with ready := ?_, chain := fun q => ?_ }, fun p is => ?_⟩
  · have holds := ok.ready
    show Links.Holds { s.ready with next := _, prev := _ } xs
    rw [next, prev]
    exact holds
  · exact (ok.chain q).congr fun p inside => update_of_ne (fun same : p = .slot i => noWait q (same ▸ inside)) ..
  · rw [procs_processCreate, if_neg fun same : p = .slot i => notCurrent (same ▸ is)]
    exact ok.current p is

theorem Ok.loaded (ok : Ok s xs ws) (free : (s.procs (.slot i)).state = .unused) (pid : s.nextPid ≠ 0) {parentPid : UInt32}
    (real : parentPid ≠ 0) :
    Ok (((s.processCreate i).modify (.slot i) fun pcb => { pcb with parentPid := parentPid }).schedulerReady (.slot i))
      (xs ++ [.slot i]) ws := by
  have created := ok.create free pid
  have pcb : (s.processCreate i).procs (.slot i) = ⟨s.nextPid, 0, .ready, 0, 0⟩ := by
    rw [procs_processCreate, if_pos rfl]
  have off : Ref.slot i ∉ xs := ok.not_queued (by rw [free]; nofun)
  have noWait : ∀ q, Ref.slot i ∉ ws q := ok.not_waiting (by rw [free]; nofun)
  have adopted := created.modify (f := fun pcb => { pcb with parentPid := parentPid }) nofun off noWait (by
    rw [pcb]
    exact ⟨fun waits => absurd rfl waits, nofun, nofun, fun _ _ => pid, fun _ _ => .inl real⟩)
  have child := (s.processCreate i).procs_modify (.slot i) (.slot i) fun pcb => { pcb with parentPid := parentPid }
  rw [if_pos rfl, pcb] at child
  have readied := adopted.schedulerReady (fun _ isHole => (Option.some.inj isHole).symm) off
    ⟨noWait, by rw [child], fun _ => by rw [child]; exact pid, fun _ => by rw [child]; exact .inl real⟩ nofun
  refine ⟨readied, fun p is => ?_⟩
  have running : (s.procs p).state = .running := ok.current p is
  have different : p ≠ .slot i := by
    rintro rfl
    rw [free] at running
    cases running
  show ((setState _ (.slot i) .ready).procs p).state = .running
  rw [procs_setState, if_neg different, procs_modify, if_neg different, procs_processCreate, if_neg different]
  exact running

theorem Sched.execProgram_loaded {parent : Ref} (isSlot : s.unusedSlot = some i) (is : s.current = some parent) :
    (s.execProgram .loaded).2 =
      ((s.processCreate i).modify (.slot i) fun pcb => { pcb with parentPid := (s.procs parent).pid }).schedulerReady (.slot i) := by
  rw [execProgram, isSlot]
  simp only [is]

theorem Sched.procs_loaded (s : Sched) (parentPid : UInt32) (p : Ref) :
    (((s.processCreate i).modify (.slot i) fun pcb => { pcb with parentPid := parentPid }).schedulerReady (.slot i)).procs p =
      if p = .slot i then ⟨s.nextPid, parentPid, .ready, 0, 0⟩ else s.procs p := by
  show (setState _ (.slot i) .ready).procs p = _
  rw [procs_setState, procs_modify, if_pos rfl, procs_processCreate, if_pos rfl]
  split
  · rfl
  · next other => rw [procs_modify, if_neg other, procs_processCreate, if_neg other]

/-! ## Exit -/

theorem Core.wakeParent {pid : UInt32} (core : Core s xs ws none) (real : pid ≠ 0) (parent : Option Ref) :
    (∃ ys, Core (s.wakeParent pid parent) ys ws none) ∧ Kept s (s.wakeParent pid parent) ∧
      (s.wakeParent pid parent).current = s.current := by
  cases parent with
  | none => exact ⟨⟨xs, core⟩, .refl s, rfl⟩
  | some parent =>
    simp only [Sched.wakeParent]
    split
    · next waits =>
      obtain ⟨blocked, waitsFor⟩ := waits
      have notIdle : parent ≠ .idle := by
        rintro rfl
        rcases (core.legal .idle).idle rfl with is | is <;> rw [is] at blocked <;> cases blocked
      have off : parent ∉ xs := core.not_queued (by rw [blocked]; nofun)
      have noWait (q : Nat) : parent ∉ ws q := fun inside => real (waitsFor.symm.trans (core.waiting inside).2.2)
      have pid := (core.legal parent).pid notIdle (by rw [blocked]; nofun)
      have rooted := (core.legal parent).rooted notIdle (.inr blocked)
      have woken := core.modify (f := fun pcb => { pcb with state := .ready, waitForPid := 0 }) nofun off noWait
        ⟨fun waits => absurd rfl waits, nofun, fun isIdle => absurd isIdle notIdle, fun _ _ => pid, fun _ _ => rooted⟩
      have pcb := s.procs_modify parent parent fun pcb => { pcb with state := .ready, waitForPid := 0 }
      rw [if_pos rfl] at pcb
      have free : Free (s.modify parent fun pcb => { pcb with state := .ready, waitForPid := 0 }) ws parent :=
        ⟨noWait, by rw [pcb], fun _ => by rw [pcb]; exact pid, fun _ => by rw [pcb]; exact rooted⟩
      refine ⟨⟨xs ++ [parent], woken.schedulerReady (fun _ isHole => (Option.some.inj isHole).symm) off free notIdle⟩, ?_, rfl⟩
      have there : Kept s (s.modify parent fun pcb => { pcb with state := .ready, waitForPid := 0 }) :=
        .modify (.modify (.modify rfl rfl (by rw [blocked]; nofun) nofun) rfl (by rw [blocked]; nofun) nofun)
          fun waits => absurd rfl waits
      have readied := Kept.setState (s := s.modify parent fun pcb => { pcb with state := .ready, waitForPid := 0 }) (p := parent)
        .ready (by rw [pcb]; exact ⟨nofun, nofun⟩) ⟨nofun, nofun⟩
      exact (there.trans readied).congr rfl rfl rfl (fun _ => rfl) id
    · exact ⟨⟨xs, core⟩, .refl s, rfl⟩

theorem Sched.procs_dying (s : Sched) (p p' : Ref) (code : Int32) : (s.dying p code).procs p' =
    if p' = p then { s.procs p with state := .zombie, exitCode := code } else s.procs p' := s.procs_modify ..

theorem Ok.dying (ok : Ok s xs ws) (is : s.current = some (.slot i)) (code : Int32) :
    Core (s.dying (.slot i) code) xs ws none ∧ Ref.slot i ∉ xs := by
  have noChild := (ok.running_free (ok.current _ is)).noChild
  obtain ⟨stopped, off⟩ : Core (s.dying (.slot i) code) xs ws (some (.slot i)) ∧ Ref.slot i ∉ xs :=
    ok.stop is (fun waits => absurd noChild waits) rfl rfl
  refine ⟨stopped.fill fun blocked => ?_, off⟩
  rw [procs_dying, if_pos rfl] at blocked
  cases blocked

theorem Ok.exit (ok : Ok s xs ws) (active : s.active = true) (is : s.current = some (.slot i))
    (child : (s.procs (.slot i)).parentPid ≠ 0) (code : Int32) (wakes : List Nat) :
    (∃ ys, Ok (s.usermodeExit code wakes) ys ws) ∧ Kept (s.dying (.slot i) code) (s.usermodeExit code wakes) := by
  have pcb := (s.procs_dying (.slot i) (.slot i) code).trans (if_pos rfl)
  obtain ⟨dead, off⟩ := ok.dying is code
  have real : ((s.dying (.slot i) code).procs (.slot i)).pid ≠ 0 := by
    rw [pcb]
    exact ok.current_pid is
  simp only [usermodeExit, is, if_neg child, dead.remove off]
  obtain ⟨⟨ys, woken⟩, kept, _⟩ :=
    dead.wakeParent real ((s.dying (.slot i) code).processGet ((s.dying (.slot i) code).procs (.slot i)).parentPid)
  obtain ⟨⟨zs, left⟩, kept'⟩ := woken.yield (kept.active active)
  have gone := kept.trans kept'
  -- the process that goes on is not the zombie
  have other := fun again => left.current (.slot i) again
  have zombie := (gone.zombie (.slot i)).mpr (by rw [pcb])
  rw [if_neg fun again => absurd (zombie.symm.trans (other again)) nofun]
  exact ⟨⟨zs, left⟩, gone⟩

/-! ## Waiting for a child -/

theorem Sched.procs_waitingFor (s : Sched) (p p' : Ref) (pid : UInt32) : (s.waitingFor p pid).procs p' =
    if p' = p then { s.procs p with state := .blocked, waitForPid := pid } else s.procs p' := update_apply ..

theorem Stays.waitingFor (running : (s.procs p).state = .running) (pid : UInt32) : Stays s (s.waitingFor p pid) := by
  have blocked : Stays s (s.modify p fun pcb => { pcb with state := .blocked, waitForPid := pid }) :=
    .modify (.modify rfl rfl (by rw [running]; nofun) nofun) rfl (by rw [running]; nofun) nofun
  exact blocked.congr rfl rfl rfl id id

/-- The core of the state in which the current process has marked itself as blocked. -/
theorem Ok.blocks (ok : Ok s xs ws) (is : s.current = some (.slot i)) {pid : UInt32} (real : pid ≠ 0) :
    Core (s.modify (.slot i) fun pcb => { pcb with state := .blocked, waitForPid := pid }) xs ws none ∧ Ref.slot i ∉ xs := by
  obtain ⟨stopped, off⟩ := ok.stop is (f := fun pcb => { pcb with state := .blocked, waitForPid := pid }) (fun _ => rfl) rfl rfl
  refine ⟨stopped.fill fun _ => .inr ?_, off⟩
  rw [procs_modify, if_pos rfl]
  exact real

theorem Ok.waitpid (ok : Ok s xs ws) (active : s.active = true) (is : s.current = some (.slot i)) {pid : UInt32} {child : Ref}
    (found : s.processGet pid = some child) (own : (s.procs child).parentPid = (s.procs (.slot i)).pid)
    (alive : (s.procs child).state ≠ .zombie) (wakes : List Nat) :
    (∃ ys, Ok (s.sysWaitpid pid wakes).2 ys ws) ∧ Kept (s.waitingFor (.slot i) pid) (s.sysWaitpid pid wakes).2 := by
  obtain ⟨real, _⟩ := processGet_some found
  obtain ⟨waits, off⟩ := ok.blocks is real
  have waiting : Core (s.waitingFor (.slot i) pid) xs ws none := { waits with }
  simp only [sysWaitpid, is, found, ne_eq, own, not_true_eq_false, if_false, if_neg alive, waiting.remove off]
  exact waiting.yield active

/-! ## Runs -/

/-- The process that makes calls. -/
def Sched.caller (s : Sched) : Option (Fin processMax) :=
  match s.current with
  | some (.slot i) => some i
  | _ => none

theorem Sched.current_of_caller (is : i ∈ s.caller) : s.current = some (.slot i) := by
  rw [caller] at is
  split at is
  · next j isCurrent =>
    rw [isCurrent]
    cases is
    rfl
  · cases is

/-- The steps that move processes between queues: a process creates a child, exits although it has
a parent, blocks on a wait queue or has to wait for a child that lives, or there is an
interrupt or a wake-up. -/
def Sched.Moves (s : Sched) : Op → Prop
  | .exec outcome => outcome = .loaded ∧ s.caller ≠ none
  | .exit _ _ => ∃ i ∈ s.caller, (s.procs (.slot i)).parentPid ≠ 0
  | .waitpid pid _ => ∃ i ∈ s.caller, ∃ child ∈ s.processGet pid,
      (s.procs child).parentPid = (s.procs (.slot i)).pid ∧ (s.procs child).state ≠ .zombie
  | .resume _ => False
  | .block _ => s.caller ≠ none
  | _ => True

/-- A process waits for a child that is in the table. -/
def Sched.Waits (s : Sched) (p : Ref) : Prop := ∃ child, (s.procs child).state ≠ .unused ∧
  (s.procs child).pid = (s.procs p).waitForPid ∧ (s.procs child).parentPid = (s.procs p).pid

def Sched.unusedSlots (s : Sched) : Finset (Fin processMax) :=
  Finset.univ.filter fun i => (s.procs (.slot i)).state = .unused

/-- The scheduler is active, and there are process identifiers for all slots that are left. -/
structure Going (s : Sched) : Prop where
  ok : ∃ xs ws, Ok s xs ws
  active : s.active = true
  current : s.current ≠ none
  waits : ∀ p, (s.procs p).waitForPid ≠ 0 → s.Waits p
  pid : 0 < s.nextPid.toNat
  pids : s.nextPid.toNat + s.unusedSlots.card < 4294967296

theorem SameProcs.waits (same : SameProcs s s') (waits : s.Waits p) (waitFor : (s'.procs p).waitForPid = (s.procs p).waitForPid) :
    s'.Waits p := by
  obtain ⟨child, there, pid, own⟩ := waits
  refine ⟨child, fun gone => there ((same.unused child).mp gone), ?_, ?_⟩
  · rw [same.pid, waitFor, pid]
  · rw [same.parentPid, same.pid, own]

namespace Going

theorem same (going : Going s) (same : SameProcs s s') (nextPid : s'.nextPid = s.nextPid) (ok : ∃ xs ws, Ok s' xs ws)
    (active : s'.active = true) (current : s'.current ≠ none) (waits : ∀ p, (s'.procs p).waitForPid ≠ 0 → s'.Waits p) :
    Going s' := by
  have slots : s'.unusedSlots = s.unusedSlots := Finset.filter_congr fun i _ => same.unused (.slot i)
  refine ⟨ok, active, current, waits, ?_, ?_⟩
  · rw [nextPid]
    exact going.pid
  · rw [nextPid, slots]
    exact going.pids

theorem kept (going : Going s) (kept : Kept s s') (ok : ∃ xs ws, Ok s' xs ws) : Going s' := by
  refine going.same kept.toSameProcs kept.nextPid ok (kept.active going.active) (kept.current going.current) fun p waiting => ?_
  have waitFor := kept.waitFor p waiting
  exact kept.toSameProcs.waits (going.waits p (waitFor ▸ waiting)) waitFor

theorem exec (going : Going s) (is : s.current = some (.slot i)) : Going (s.execProgram .loaded).2 := by
  cases isSlot : s.unusedSlot with
  | none =>
    rw [execProgram, isSlot]
    exact going
  | some j =>
    have free := unusedSlot_some isSlot
    obtain ⟨xs, ws, ok⟩ := going.ok
    have positive := going.pid
    have pids := going.pids
    have nextPid : s.nextPid ≠ 0 := by
      rintro zero
      rw [zero] at positive
      exact absurd positive (by decide)
    have member : j ∈ s.unusedSlots := Finset.mem_filter.mpr ⟨Finset.mem_univ j, free⟩
    have procs := s.procs_loaded (i := j) (s.procs (.slot i)).pid
    have counted : (s.nextPid + 1).toNat = s.nextPid.toNat + 1 := by
      have left := Finset.card_pos.mpr ⟨j, member⟩
      rw [UInt32.toNat_add]
      exact Nat.mod_eq_of_lt (show s.nextPid.toNat + 1 < 4294967296 by omega)
    rw [execProgram_loaded isSlot is]
    generalize made : schedulerReady _ (.slot j) = s' at procs ⊢
    have created : Ok s' (xs ++ [.slot j]) ws := made ▸ ok.loaded free nextPid (ok.current_pid is)
    refine ⟨⟨_, _, created⟩, made ▸ rfl, ?_, fun p waiting => ?_, ?_, ?_⟩
    · rw [← made]
      exact going.current
    · rw [procs] at waiting
      split at waiting
      · exact absurd rfl waiting
      · next other =>
        obtain ⟨child, there, pid, own⟩ := going.waits p waiting
        have different : child ≠ .slot j := by
          rintro rfl
          exact there free
        refine ⟨child, ?_, ?_, ?_⟩ <;> rw [procs child, if_neg different]
        · exact there
        · rw [procs p, if_neg other, pid]
        · rw [procs p, if_neg other, own]
    · rw [← made]
      show 0 < (s.nextPid + 1).toNat
      omega
    · have fewer : s'.unusedSlots = s.unusedSlots.erase j := by
        ext k
        rw [Finset.mem_erase, unusedSlots, unusedSlots, Finset.mem_filter, Finset.mem_filter, procs]
        by_cases here : k = j
        · simp [here]
        · rw [if_neg fun same => here (Ref.slot.inj same)]
          simp [here]
      have sameCount : s'.nextPid = s.nextPid + 1 := by
        rw [← made]
        rfl
      rw [fewer, Finset.card_erase_of_mem member, sameCount, counted]
      have left := Finset.card_pos.mpr ⟨j, member⟩
      omega

theorem exit (going : Going s) (is : s.current = some (.slot i)) (child : (s.procs (.slot i)).parentPid ≠ 0) (code : Int32)
    (wakes : List Nat) : Going (s.usermodeExit code wakes) := by
  obtain ⟨xs, ws, ok⟩ := going.ok
  obtain ⟨⟨ys, done⟩, kept⟩ := ok.exit going.active is child code wakes
  have running := ok.current _ is
  have dead : SameProcs s (s.dying (.slot i) code) := .modify rfl rfl (by rw [running]; nofun) nofun
  have waitFor (p : Ref) : ((s.dying (.slot i) code).procs p).waitForPid = (s.procs p).waitForPid := by
    rw [dying, procs_modify]
    split
    · next here => rw [here]
    · rfl
  refine going.same (dead.trans kept.toSameProcs) kept.nextPid ⟨ys, ws, done⟩ (kept.active going.active) (kept.current going.current)
    fun p waiting => ?_
  have before := (kept.waitFor p waiting).trans (waitFor p)
  exact (dead.trans kept.toSameProcs).waits (going.waits p (before ▸ waiting)) before

theorem waitpid (going : Going s) (is : s.current = some (.slot i)) {pid : UInt32} {child : Ref}
    (found : s.processGet pid = some child) (own : (s.procs child).parentPid = (s.procs (.slot i)).pid)
    (alive : (s.procs child).state ≠ .zombie) (wakes : List Nat) : Going (s.sysWaitpid pid wakes).2 := by
  obtain ⟨xs, ws, ok⟩ := going.ok
  obtain ⟨⟨ys, done⟩, kept⟩ := ok.waitpid going.active is found own alive wakes
  obtain ⟨_, _, there, isPid⟩ := processGet_some found
  have running := ok.current _ is
  have same := (Stays.waitingFor running pid).toSameProcs.trans kept.toSameProcs
  refine going.same same kept.nextPid ⟨ys, ws, done⟩ (kept.active going.active) (kept.current going.current) fun p waits => ?_
  have before := kept.waitFor p waits
  by_cases here : p = .slot i
  · have isChild : ((s.waitingFor (.slot i) pid).procs p).waitForPid = pid := by
      rw [procs_waitingFor, if_pos here]
    refine ⟨child, fun gone => there ((same.unused child).mp gone), ?_, ?_⟩
    · rw [same.pid, isPid, before, isChild]
    · rw [same.parentPid, same.pid, own, here]
  · have unchanged : ((s.waitingFor (.slot i) pid).procs p).waitForPid = (s.procs p).waitForPid := by
      rw [procs_waitingFor, if_neg here]
    have before := before.trans unchanged
    exact same.waits (going.waits p (before ▸ waits)) before

theorem step {op : Op} {ans : Option Int32} (going : Going s) (moves : s.Moves op) (stepped : s.step op = (ans, s')) :
    Going s' := by
  obtain rfl : (s.step op).2 = s' := congrArg Prod.snd stepped
  obtain ⟨xs, ws, ok⟩ := going.ok
  cases op with
  | exec outcome =>
    obtain ⟨rfl, calls⟩ := moves
    obtain ⟨i, is⟩ := Option.ne_none_iff_exists'.mp calls
    exact going.exec (current_of_caller is)
  | exit code wakes =>
    obtain ⟨i, is, child⟩ := moves
    exact going.exit (current_of_caller is) child code wakes
  | waitpid pid wakes =>
    obtain ⟨i, is, child, found, own, alive⟩ := moves
    exact going.waitpid (current_of_caller is) found own alive wakes
  | resume wakes => cases moves
  | block q =>
    obtain ⟨i, is⟩ := Option.ne_none_iff_exists'.mp moves
    obtain ⟨⟨ys, done⟩, kept⟩ := ok.block going.active (current_of_caller is) q
    exact going.kept kept ⟨ys, _, done⟩
  | wakeOne q =>
    cases isList : ws q with
    | nil =>
      rw [step, ok.wakeOne_nil isList]
      exact going
    | cons p rest =>
      obtain ⟨done, kept⟩ := ok.wakeOne isList
      exact going.kept kept ⟨_, _, done⟩
  | wakeAll q =>
    obtain ⟨done, kept⟩ := ok.wakeAll q
    exact going.kept kept done
  | tick =>
    obtain ⟨⟨ys, done⟩, kept⟩ := ok.tick
    exact going.kept kept ⟨ys, ws, done⟩
  | yield =>
    obtain ⟨⟨ys, done⟩, kept⟩ := ok.yield
    exact going.kept kept ⟨ys, ws, done⟩

end Going

/-! ## The representation -/

/-- The ready queue holds `xs` and the wait queue `q` holds `ws q`. -/
structure Represented (s : Sched) (xs : List Ref) (ws : Nat → List Ref) : Prop where
  links : s.ready.Holds xs
  count : s.count.toNat = xs.length
  noIdle : .idle ∉ xs
  ready : ∀ p ∈ xs, (s.procs p).state = .ready
  off : ∀ p, p ∉ xs → s.ready.next p = none ∧ s.ready.prev p = none
  contains : ∀ p, s.ready.contains p = true ↔ p ∈ xs
  current : ∃ p, s.current = some p ∧ (s.procs p).state = .running ∧ p ∉ xs ∧
    ∀ p', (s.procs p').state = .running → p' = p ∨ p' = .idle
  waiters : ∀ q, Chain (s.heads q) s.waitNext (ws q)
  blocked : ∀ p, (s.procs p).state = .blocked →
    ((∃! q, p ∈ ws q) ∧ (s.procs p).waitForPid = 0) ∨ ((∀ q, p ∉ ws q) ∧ (s.procs p).waitForPid ≠ 0 ∧ s.Waits p)
  apart : ∀ p ∈ xs, ∀ q, p ∉ ws q

theorem Going.represented (going : Going s) : ∃ xs ws, Represented s xs ws ∧ s.halted = false := by
  obtain ⟨xs, ws, ok⟩ := going.ok
  have bound := length_le_of_nodup ok.ready.nodup
  refine ⟨xs, ws, ?_, ok.fine⟩
  refine ⟨ok.ready, ?_, fun inside => (ok.queued _ inside).1 rfl, fun p inside => (ok.queued p inside).2.1, fun p off => ?_,
    ok.ready.contains, ?_, ok.chain, fun p isBlocked => ?_, fun p inside => (ok.queued_free inside).noWait⟩
  · rw [ok.count]
    simp only [processMax] at bound
    exact Nat.mod_eq_of_lt (show xs.length < 4294967296 by omega)
  · have behind : p ∉ xs.reverse := fun inside => off (mem_reverse.mp inside)
    rw [ok.ready.next, ok.ready.prev, after_of_not_mem off, after_of_not_mem behind]
    exact ⟨rfl, rfl⟩
  · obtain ⟨p, is⟩ := Option.ne_none_iff_exists'.mp going.current
    have running := ok.current p is
    refine ⟨p, is, running, ok.not_queued (by rw [running]; nofun), fun p' runs => ?_⟩
    rcases (ok.legal p').running runs with isIdle | isCurrent
    · exact .inr isIdle
    · exact .inl (Option.some.inj (isCurrent.symm.trans is))
  · rcases ok.blocked p nofun isBlocked with ⟨q, inside⟩ | waits
    · exact .inl ⟨⟨q, inside, fun q' inside' => ok.apart inside' inside⟩, (ok.waiting inside).2.2⟩
    · exact .inr ⟨fun q inside => waits (ok.waiting inside).2.2, waits, going.waits p waits⟩

/-- The kernel shell has started a process, and nobody has been made ready yet. -/
structure Starting (s : Sched) : Prop where
  ready : s.ready.Holds []
  count : s.count = 0
  heads : ∀ q, s.heads q = none
  current : ∃ i, s.current = some (.slot i) ∧ (s.procs (.slot i)).state = .running ∧ (s.procs (.slot i)).pid ≠ 0 ∧
    s.shellChild = some (.slot i)
  others : ∀ p, s.current ≠ some p → (s.procs p).state = .unused ∧ p ≠ .idle ∨
    (s.procs p).state = .ready ∧ (p ≠ .idle → (s.procs p).pid ≠ 0)
  nobody : ∀ p, (s.procs p).waitForPid = 0
  pid : 0 < s.nextPid.toNat
  pids : s.nextPid.toNat + s.unusedSlots.card < 4294967296
  fine : s.halted = false

theorem Starting.going (starting : Starting s) : Going { s with active := true } := by
  obtain ⟨i, is, running, pid, shell⟩ := starting.current
  have cases (p : Ref) : p = .slot i ∨ (s.procs p).state = .unused ∧ p ≠ .idle ∨
      (s.procs p).state = .ready ∧ (p ≠ .idle → (s.procs p).pid ≠ 0) := by
    by_cases same : p = .slot i
    · exact .inl same
    · exact .inr (starting.others p fun current => same (Option.some.inj (current.symm.trans is)))
  have notBlocked (p : Ref) : (s.procs p).state ≠ .blocked := by
    rcases cases p with rfl | ⟨state, _⟩ | ⟨state, _⟩
    · rw [running]
      nofun
    · rw [state]
      nofun
    · rw [state]
      nofun
  have legal (p : Ref) : Legal (s.procs p) p (s.current = some p) (s.shellChild = some p) := by
    refine ⟨fun waits => absurd (starting.nobody p) waits, fun runs => ?_, fun isIdle => ?_, fun notIdle there => ?_,
      fun _ reason => .inr ?_⟩
    rotate_right
    · rw [shell, ← is]
      exact reason.resolve_right (notBlocked p)
    all_goals rcases cases p with rfl | ⟨state, other⟩ | ⟨state, real⟩
    · exact .inr is
    · exact absurd (state.symm.trans runs) nofun
    · exact absurd (state.symm.trans runs) nofun
    · cases isIdle
    · exact absurd isIdle other
    · exact .inl state
    · exact pid
    · exact absurd state there
    · exact real notIdle
  have core : Core s [] (fun _ => []) none := by
    refine ⟨starting.ready, starting.count, fun _ inside => absurd inside not_mem_nil,
      fun q => by rw [starting.heads q]; exact .nil _, fun inside => absurd inside not_mem_nil,
      fun inside => absurd inside not_mem_nil, fun p _ blocked => absurd blocked (notBlocked p), legal, starting.fine⟩
  refine ⟨⟨[], _, core.active true, fun p is' => ?_⟩, rfl, ?_, fun p waits => absurd (starting.nobody p) waits, starting.pid,
    starting.pids⟩
  · rw [← Option.some.inj (is.symm.trans is')]
    exact running
  · rw [is]
    nofun

theorem Starting.exec (starting : Starting s) (room : s.unusedSlot ≠ none) : Going (s.execProgram .loaded).2 := by
  obtain ⟨j, isSlot⟩ := Option.ne_none_iff_exists'.mp room
  obtain ⟨i, is, _⟩ := starting.current
  have going := starting.going.exec (show { s with active := true }.current = some (.slot i) from is)
  rw [execProgram_loaded (show { s with active := true }.unusedSlot = some j from isSlot)
    (show { s with active := true }.current = some (.slot i) from is)] at going
  rw [execProgram_loaded isSlot is]
  exact going

/-- Once a first child has been made ready, every sequence of steps keeps the queues well formed. -/
theorem queues_stay_represented {s₀ s₁ : Sched} {ans : Option Int32} {trace : List (Op × Option Int32)} (starting : Starting s₀)
    (room : s₀.unusedSlot ≠ none) (first : s₀.step (.exec .loaded) = (ans, s₁)) (run : Run Sched.step Sched.Moves s₁ trace s) :
    ∃ xs ws, Represented s xs ws ∧ s.halted = false := by
  have begun : Going s₁ := by
    rw [← show (s₀.step (.exec .loaded)).2 = s₁ from congrArg Prod.snd first]
    exact starting.exec room
  exact (run.invariant (I := Going) (fun going moves stepped => going.step moves stepped) begun).represented

instance (s : Sched) (op : Op) : Decidable (s.Moves op) := by
  cases op <;> dsimp only [Sched.Moves] <;> infer_instance

def shellStarted : Sched := (initial.step (.exec .loaded)).2

def firstChild : Sched := (shellStarted.step (.exec .loaded)).2

/-- The first process blocks, its child has a child and waits for it, and that one wakes the first process and exits. -/
def sampleMoves : List Op :=
  [.block 3, .exec .loaded, .waitpid 3 [], .wakeAll 3, .tick, .tick, .yield, .exit 7 []]

theorem queues_stay_represented_sample : ∃ xs ws,
    Represented (execute Sched.step firstChild sampleMoves).2 xs ws ∧ (execute Sched.step firstChild sampleMoves).2.halted = false := by
  have moves : AllAllowed step Moves firstChild sampleMoves := by decide +kernel
  have starting : Starting shellStarted := by
    have empty : shellStarted.ready.Holds [] := ⟨nodup_nil, rfl, rfl, by decide +kernel, by decide +kernel⟩
    exact ⟨empty, by decide +kernel, fun _ => rfl, ⟨⟨0, by decide⟩, by decide +kernel⟩, by decide +kernel, by decide +kernel, by decide +kernel,
      by decide +kernel, by decide +kernel⟩
  exact queues_stay_represented starting (by decide +kernel) rfl (Run.of_execute _ moves)

end GinnOS.Scheduler
