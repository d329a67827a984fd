import GinnOS.Lib.Run
import GinnOS.Vfs.Paths

/-! # The mount table (`kernel/vfs/vfs_mount.c`)

Eight slots, each free or with a mount point and the filesystem mounted there.  `mountedAt` reads
off a history of calls what is mounted at a point, `Reflects` says that the table agrees with
it, and then a path is resolved to the longest mount point that covers it
(`mount_resolution_is_longest`).
-/

namespace GinnOS.Vfs

open Lib Lib.Path List Function

/-- `VFS_MOUNT_MAX`. -/
def mountMax : Nat := 8

/-- `VFS_PATH_MAX`. -/
def pathMax : Nat := 256

inductive Kerr where
  | ok
  | inval
  | nospc
  | noent
deriving DecidableEq, Repr

structure MountEntry (μ : Type) where
  point : List UInt8
  mount : Option μ

abbrev MountTable (μ : Type) := Fin mountMax → MountEntry μ

/-- `strncmp(lhs, rhs, count) == 0`. -/
def strncmpEq : (lhs rhs : List UInt8) → (count : Nat) → Bool
  | _, _, 0 => true
  | [], [], _ + 1 => true
  | a :: lhs, b :: rhs, count + 1 => a == b && strncmpEq lhs rhs count
  | _, _, _ + 1 => false

def prefixCovers (point path : List UInt8) : Bool :=
  if point = [slash] then true
  else if strncmpEq path point point.length then
    -- the next byte ends the component
    match path[point.length]? with
    | none => true
    | some c => c == slash
  else false

namespace MountTable

variable {μ : Type} (t : MountTable μ)

def findExact (point : List UInt8) : Option (Fin mountMax) :=
  (List.finRange mountMax).find? fun i => (t i).mount.isSome && (t i).point == point

def findFree : Option (Fin mountMax) := (List.finRange mountMax).find? fun i => (t i).mount.isNone

/-- `vfs_mount`; `isMounted` is the flag of a filesystem, and `none` is the null pointer. -/
def vfsMount (isMounted : μ → Bool) (point : List UInt8) (mount : Option μ) : Kerr × MountTable μ :=
  match mount with
  | none => (.inval, t)
  | some m =>
    if isMounted m = false ∨ point.head? ≠ some slash then (.inval, t)
    else if pathMax ≤ point.length then (.inval, t)
    else
      match (t.findExact point).or t.findFree with
      | none => (.nospc, t)
      | some i => (.ok, Function.update t i ⟨point.take (pathMax - 1), some m⟩)

def vfsUmount (point : List UInt8) : Kerr × MountTable μ :=
  match t.findExact point with
  | none => (.noent, t)
  | some i => (.ok, Function.update t i ⟨[], none⟩)

/-- One round of the search: the best mount so far, with the length of its mount point. -/
def better (path : List UInt8) (best : Option (μ × Nat)) (i : Fin mountMax) : Option (μ × Nat) :=
  match (t i).mount with
  | none => best
  | some m =>
    if prefixCovers (t i).point path then
      match best with
      | none => some (m, (t i).point.length)
      | some (_, bestLen) => if bestLen < (t i).point.length then some (m, (t i).point.length) else best
    else best

/-- `vfs_resolve_mount_path`: the mount and the path relative to it. -/
def vfsResolveMountPath (path : List UInt8) : Option (μ × List UInt8) :=
  if path.head? ≠ some slash then none
  else
    match (List.finRange mountMax).foldl (t.better path) none with
    | none => none
    | some (best, bestLen) =>
      if bestLen ≤ 1 then some (best, path)
      else if path.drop bestLen = [] then some (best, [slash])
      else some (best, path.drop bestLen)

end MountTable

inductive MountOp (μ : Type) where
  | mount (point : List UInt8) (mount : Option μ)
  | umount (point : List UInt8)

def MountTable.step {μ : Type} (isMounted : μ → Bool) (t : MountTable μ) : MountOp μ → Kerr × MountTable μ
  | .mount point mount => t.vfsMount isMounted point mount
  | .umount point => t.vfsUmount point

def noMounts {μ : Type} : MountTable μ := fun _ => ⟨[], none⟩

/-- The mount points are canonical absolute paths. -/
def CanonicalPoint {μ : Type} (_ : MountTable μ) : MountOp μ → Prop
  | .mount point _ => Canonical slash dot point
  | .umount point => Canonical slash dot point

instance CanonicalPoint.decide {μ : Type} (t : MountTable μ) (op : MountOp μ) : Decidable (CanonicalPoint t op) := by
  cases op <;> dsimp only [CanonicalPoint] <;> infer_instance

/-- What a call that succeeded leaves mounted at a point where `now` was mounted. -/
def afterCall {μ : Type} (point : List UInt8) (now : Option μ) : MountOp μ × Kerr → Option μ
  | (.mount p mount, .ok) => if p = point then mount else now
  | (.umount p, .ok) => if p = point then none else now
  | _ => now

/-- What was mounted last at a point and not unmounted since. -/
def mountedAt {μ : Type} (history : List (MountOp μ × Kerr)) (point : List UInt8) : Option μ := history.foldl (afterCall point) none

/-- The point is the path or one of its ancestors, in whole components. -/
def Covers (point path : List UInt8) : Prop := ∃ xs ys, (∀ c ∈ xs ++ ys, Proper slash dot c) ∧ point = render slash xs ∧
  path = render slash (xs ++ ys)

/-! ## Covering -/

variable {point path : List UInt8}

theorem strncmpEq_iff (path point : List UInt8) : strncmpEq path point point.length = true ↔ ∃ rest, path = point ++ rest := by
  induction point generalizing path with
  | nil => exact iff_of_true (by simp [strncmpEq]) ⟨path, rfl⟩
  | cons b point ih =>
    cases path with
    | nil => exact iff_of_false (by simp [strncmpEq]) fun ⟨rest, same⟩ => by cases same
    | cons a path =>
      rw [length_cons, strncmpEq, Bool.and_eq_true, beq_iff_eq, ih]
      constructor
      · rintro ⟨rfl, rest, rfl⟩
        exact ⟨rest, rfl⟩
      · rintro ⟨rest, same⟩
        obtain ⟨rfl, rfl⟩ := cons.inj same
        exact ⟨rfl, rest, rfl⟩

theorem prefixCovers_iff (isPoint : Canonical slash dot point) (isPath : Canonical slash dot path) :
    prefixCovers point path = true ↔ Covers point path := by
  obtain ⟨xs, properX, rfl⟩ := isPoint.exists_stack
  obtain ⟨zs, properZ, rfl⟩ := isPath.exists_stack
  by_cases root : xs = []
  · subst root
    exact iff_of_true (by simp [prefixCovers, render]) ⟨[], zs, properZ, rfl, rfl⟩
  have notRoot := render_ne_root root properX
  have splitX := splitOn_render xs root fun c member => (properX c member).plain
  rw [prefixCovers, if_neg notRoot]
  constructor
  · intro covers
    split at covers
    · next same =>
      obtain ⟨rest, isRest⟩ := (strncmpEq_iff _ _).mp same
      rw [isRest, getElem?_append_right (Nat.le_refl _), Nat.sub_self] at covers
      cases rest with
      | nil =>
        rw [append_nil] at isRest
        exact ⟨xs, [], by rwa [append_nil], rfl, by rw [isRest, append_nil]⟩
      | cons c rest =>
        obtain rfl : c = slash := beq_iff_eq.mp covers
        have rooted : zs ≠ [] := by
          rintro rfl
          have lengths := congrArg length isRest
          have head := render_head xs
          cases isXs : render slash xs with
          | nil =>
            rw [isXs] at head
            cases head
          | cons a more =>
            rw [isXs] at lengths
            simp [render] at lengths
        have splitZ := splitOn_render zs rooted fun c member => (properZ c member).plain
        rw [isRest, splitOn_append_cons_self, splitX, cons_append, cons.injEq] at splitZ
        exact ⟨xs, rest.splitOn slash, splitZ.2 ▸ properZ, rfl, by rw [splitZ.2]⟩
    · cases covers
  · rintro ⟨xs', ys, proper, same, isPath⟩
    obtain rfl := render_injective properX (fun c member => proper c (mem_append_left ys member)) same
    rw [render_append root] at isPath
    rw [if_pos ((strncmpEq_iff _ _).mpr ⟨_, isPath⟩), isPath, getElem?_append_right (Nat.le_refl _), Nat.sub_self]
    cases ys with
    | nil => rfl
    | cons c ys => exact beq_self_eq_true slash

/-! ## The table and the history -/

variable {μ : Type} {t t' : MountTable μ} {now : List UInt8 → Option μ} {i : Fin mountMax}

theorem MountTable.findExact_some (found : t.findExact point = some i) : (t i).mount.isSome = true ∧ (t i).point = point := by
  have known := find?_some found
  rwa [Bool.and_eq_true, beq_iff_eq] at known

theorem MountTable.findExact_none (missing : t.findExact point = none) (live : (t i).mount.isSome = true) : (t i).point ≠ point := by
  intro same
  have known := find?_eq_none.mp missing i (mem_finRange i)
  rw [live, same, beq_self_eq_true] at known
  exact known rfl

/-- The slots in use are the mount points at which something is mounted. -/
structure Reflects (t : MountTable μ) (now : List UInt8 → Option μ) : Prop where
  slot : ∀ i m, (t i).mount = some m → now (t i).point = some m ∧ Canonical slash dot (t i).point
  found : ∀ point m, now point = some m → ∃ i, (t i).point = point ∧ (t i).mount = some m
  distinct : ∀ i j, (t i).mount.isSome = true → (t j).mount.isSome = true → (t i).point = (t j).point → i = j

namespace Reflects

/-- The slot `i` is given to a mount point that no other slot has. -/
theorem mount (reflects : Reflects t now) (canonical : Canonical slash dot point) (m : μ)
    (own : (t i).mount.isSome = true → (t i).point = point)
    (others : ∀ j, j ≠ i → (t j).mount.isSome = true → (t j).point ≠ point) :
    Reflects (update t i ⟨point, some m⟩) fun p => if point = p then some m else now p := by
  have same : update t i ⟨point, some m⟩ i = ⟨point, some m⟩ := update_self ..
  have other {j : Fin mountMax} (different : j ≠ i) : update t i ⟨point, some m⟩ j = t j := update_of_ne different ..
  refine ⟨fun j m' isMount => ?_, fun p m' isMount => ?_, fun j k liveJ liveK samePoint => ?_⟩
  · by_cases here : j = i
    · subst here
      rw [same] at isMount ⊢
      exact ⟨by rw [if_pos rfl]; exact isMount, canonical⟩
    · rw [other here] at isMount ⊢
      have known := reflects.slot j m' isMount
      refine ⟨?_, known.2⟩
      rw [if_neg fun samePoint => others j here (by rw [isMount]; rfl) samePoint.symm]
      exact known.1
  · by_cases here : point = p
    · rw [if_pos here] at isMount
      exact ⟨i, by rw [same]; exact here, by rw [same]; exact isMount⟩
    · rw [if_neg here] at isMount
      obtain ⟨j, isPoint, isHere⟩ := reflects.found p m' isMount
      have different : j ≠ i := by
        rintro rfl
        exact here ((own (by rw [isHere]; rfl)).symm.trans isPoint)
      exact ⟨j, by rw [other different]; exact isPoint, by rw [other different]; exact isHere⟩
  · by_cases hereJ : j = i
    · by_cases hereK : k = i
      · rw [hereJ, hereK]
      · subst hereJ
        rw [same, other hereK] at samePoint
        rw [other hereK] at liveK
        exact absurd samePoint.symm (others k hereK liveK)
    · by_cases hereK : k = i
      · subst hereK
        rw [same, other hereJ] at samePoint
        rw [other hereJ] at liveJ
        exact absurd samePoint (others j hereJ liveJ)
      · rw [other hereJ] at liveJ samePoint
        rw [other hereK] at liveK samePoint
        exact reflects.distinct j k liveJ liveK samePoint

theorem umount (reflects : Reflects t now) (live : (t i).mount.isSome = true) (isPoint : (t i).point = point) :
    Reflects (update t i ⟨[], none⟩) fun p => if point = p then none else now p := by
  have same : update t i ⟨[], none⟩ i = ⟨[], none⟩ := update_self ..
  have other {j : Fin mountMax} (different : j ≠ i) : update t i ⟨[], none⟩ j = t j := update_of_ne different ..
  have notHere {j : Fin mountMax} (isLive : (update t i ⟨[], none⟩ j).mount.isSome = true) : j ≠ i := by
    rintro rfl
    rw [same] at isLive
    cases isLive
  refine ⟨fun j m isMount => ?_, fun p m isMount => ?_, fun j k liveJ liveK samePoint => ?_⟩
  · have different := notHere (j := j) (by rw [isMount]; rfl)
    rw [other different] at isMount ⊢
    have known := reflects.slot j m isMount
    refine ⟨?_, known.2⟩
    rw [if_neg fun samePoint => different (reflects.distinct j i (by rw [isMount]; rfl) live (samePoint.symm.trans isPoint.symm))]
    exact known.1
  · by_cases here : point = p
    · rw [if_pos here] at isMount
      cases isMount
    · rw [if_neg here] at isMount
      obtain ⟨j, isHere, isMount⟩ := reflects.found p m isMount
      have different : j ≠ i := by
        rintro rfl
        exact here (isPoint.symm.trans isHere)
      exact ⟨j, by rw [other different]; exact isHere, by rw [other different]; exact isMount⟩
  · rw [other (notHere liveJ), other (notHere liveK)] at samePoint
    exact reflects.distinct j k (other (notHere liveJ) ▸ liveJ) (other (notHere liveK) ▸ liveK) samePoint

theorem step {isMounted : μ → Bool} {op : MountOp μ} {ans : Kerr} (reflects : Reflects t now) (canonical : CanonicalPoint t op)
    (stepped : t.step isMounted op = (ans, t')) : Reflects t' fun p => afterCall p (now p) (op, ans) := by
  cases op with
  | mount point mount =>
    simp only [MountTable.step, MountTable.vfsMount] at stepped
    split at stepped
    · cases stepped
      exact reflects
    · next m =>
      split at stepped
      · cases stepped
        exact reflects
      · split at stepped
        · cases stepped
          exact reflects
        · next short =>
          have whole : point.take (pathMax - 1) = point := take_of_length_le (Nat.le_sub_one_of_lt (Nat.lt_of_not_le short))
          split at stepped
          · cases stepped
            exact reflects
          · next i chosen =>
            cases stepped
            rw [whole]
            cases exactly : t.findExact point with
            | some j =>
              rw [exactly, Option.some_or] at chosen
              obtain rfl := Option.some.inj chosen
              obtain ⟨live, isPoint⟩ := MountTable.findExact_some exactly
              refine reflects.mount canonical m (fun _ => isPoint) fun k different liveK samePoint => different ?_
              exact reflects.distinct k j liveK live (samePoint.trans isPoint.symm)
            | none =>
              rw [exactly, Option.none_or] at chosen
              have free := find?_some chosen
              refine reflects.mount canonical m (fun live => ?_) fun k _ liveK => MountTable.findExact_none exactly liveK
              rw [Option.isNone_iff_eq_none.mp free] at live
              cases live
  | umount point =>
    simp only [MountTable.step, MountTable.vfsUmount] at stepped
    split at stepped
    · cases stepped
      exact reflects
    · next i found =>
      cases stepped
      obtain ⟨live, isPoint⟩ := MountTable.findExact_some found
      exact reflects.umount live isPoint

end Reflects

/-! ## The longest mount point -/

/-- The best mount so far covers the path, and nothing that was looked at is longer. -/
structure Best (t : MountTable μ) (path : List UInt8) (seen : Fin mountMax → Prop) (best : Option (μ × Nat)) : Prop where
  from_ : ∀ m n, best = some (m, n) → ∃ i, (t i).mount = some m ∧ prefixCovers (t i).point path = true ∧ (t i).point.length = n
  longest : ∀ i, seen i → (t i).mount.isSome = true → prefixCovers (t i).point path = true →
    ∃ m n, best = some (m, n) ∧ (t i).point.length ≤ n

namespace Best

variable {seen : Fin mountMax → Prop} {best : Option (μ × Nat)}

theorem keep (known : Best t path seen best)
    (skipped : (t i).mount.isSome = true → prefixCovers (t i).point path = true →
      ∃ m n, best = some (m, n) ∧ (t i).point.length ≤ n) : Best t path (fun j => seen j ∨ j = i) best := by
  refine ⟨known.from_, fun j looked live covers => ?_⟩
  rcases looked with old | rfl
  · exact known.longest j old live covers
  · exact skipped live covers

theorem take {m : μ} (known : Best t path seen best) (isMount : (t i).mount = some m) (covers : prefixCovers (t i).point path = true)
    (longer : ∀ m' n, best = some (m', n) → n ≤ (t i).point.length) :
    Best t path (fun j => seen j ∨ j = i) (some (m, (t i).point.length)) := by
  refine ⟨fun m' n isBest => ?_, fun j looked live covers' => ⟨m, _, rfl, ?_⟩⟩
  · obtain ⟨rfl, rfl⟩ := Prod.mk.inj (Option.some.inj isBest)
    exact ⟨i, isMount, covers, rfl⟩
  · rcases looked with old | rfl
    · obtain ⟨m', n, isBest, shorter⟩ := known.longest j old live covers'
      exact shorter.trans (longer m' n isBest)
    · exact Nat.le_refl _

theorem better (known : Best t path seen best) (i : Fin mountMax) : Best t path (fun j => seen j ∨ j = i) (t.better path best i) := by
  rw [MountTable.better]
  split
  · next free =>
    refine known.keep fun live => ?_
    rw [free] at live
    cases live
  · next m isMount =>
    split
    · next covers =>
      split
      · exact known.take isMount covers nofun
      · next m' n =>
        split
        · next longer =>
          refine known.take isMount covers fun m'' n' isBest => ?_
          obtain ⟨rfl, rfl⟩ := Prod.mk.inj (Option.some.inj isBest)
          exact Nat.le_of_lt longer
        · next shorter => exact known.keep fun _ _ => ⟨m', n, rfl, Nat.le_of_not_lt shorter⟩
    · next apart => exact known.keep fun _ covers => absurd covers apart

theorem foldl (known : Best t path seen best) (slots : List (Fin mountMax)) :
    Best t path (fun j => seen j ∨ j ∈ slots) (slots.foldl (t.better path) best) := by
  induction slots generalizing seen best with
  | nil =>
    refine ⟨known.from_, fun j looked => known.longest j ?_⟩
    simpa using looked
  | cons i slots ih =>
    have later := ih (known.better i)
    refine ⟨later.from_, fun j looked => later.longest j ?_⟩
    simpa [or_assoc] using looked

end Best

theorem nothingMounted : Reflects (noMounts : MountTable μ) fun _ => none := ⟨nofun, nofun, nofun⟩

theorem Reflects.run {isMounted : μ → Bool} {history : List (MountOp μ × Kerr)} (reflects : Reflects t now)
    (run : Run (MountTable.step isMounted) CanonicalPoint t history t') :
    Reflects t' fun point => history.foldl (afterCall point) (now point) := by
  induction run generalizing now with
  | nil => exact reflects
  | cons allowed stepped _ ih => exact ih (reflects.step allowed stepped)

theorem Covers.canonical (covers : Covers point path) : Canonical slash dot point := by
  obtain ⟨xs, ys, proper, rfl, -⟩ := covers
  exact canonical_render fun c member => proper c (mem_append_left ys member)

theorem Reflects.search (reflects : Reflects t now) (canonical : Canonical slash dot path) :
    match (finRange mountMax).foldl (t.better path) none with
    | none => ∀ point, Covers point path → now point = none
    | some (m, n) => ∃ point, Covers point path ∧ now point = some m ∧ point.length = n ∧
        ∀ other, Covers other path → now other ≠ none → other.length ≤ n := by
  have start : Best t path (fun _ => False) none := ⟨nofun, nofun⟩
  have best := start.foldl (finRange mountMax)
  have seen {point : List UInt8} {m : μ} (covers : Covers point path) (isMount : now point = some m) :
      ∃ m' n, (finRange mountMax).foldl (t.better path) none = some (m', n) ∧ point.length ≤ n := by
    obtain ⟨i, rfl, here⟩ := reflects.found point m isMount
    exact best.longest i (.inr (mem_finRange i)) (by rw [here]; rfl) ((prefixCovers_iff covers.canonical canonical).mpr covers)
  split
  · next nothing =>
    intro point covers
    cases isMount : now point with
    | none => rfl
    | some m =>
      obtain ⟨_, _, isBest, _⟩ := seen covers isMount
      rw [nothing] at isBest
      cases isBest
  · next m n isBest =>
    obtain ⟨i, here, covers, length⟩ := best.from_ m n isBest
    have known := reflects.slot i m here
    refine ⟨(t i).point, (prefixCovers_iff known.2 canonical).mp covers, known.1, length, fun other coversOther mounted => ?_⟩
    obtain ⟨m', isMount⟩ := Option.ne_none_iff_exists'.mp mounted
    obtain ⟨m'', n', isBest', shorter⟩ := seen coversOther isMount
    rw [isBest] at isBest'
    obtain ⟨-, rfl⟩ := Prod.mk.inj (Option.some.inj isBest')
    exact shorter

theorem Covers.root_iff (covers : Covers point path) : point.length ≤ 1 ↔ point = [slash] := by
  obtain ⟨xs, ys, -, rfl, -⟩ := covers
  have head := render_head xs
  constructor
  · intro short
    cases isPoint : render slash xs with
    | nil =>
      rw [isPoint] at head
      cases head
    | cons a more =>
      rw [isPoint] at head short
      obtain rfl := Option.some.inj head
      rw [length_eq_zero_iff.mp (Nat.le_zero.mp (Nat.le_of_succ_le_succ short))]
  · intro isRoot
    rw [isRoot]
    exact Nat.le_refl 1

theorem Covers.split (covers : Covers point path) (notRoot : point ≠ [slash]) :
    ∃ rest, path = point ++ rest ∧ (rest = [] ∨ rest.head? = some slash) := by
  obtain ⟨xs, ys, -, rfl, rfl⟩ := covers
  have rooted : xs ≠ [] := by
    rintro rfl
    exact notRoot rfl
  refine ⟨_, render_append rooted ys, ?_⟩
  cases ys with
  | nil => exact .inl rfl
  | cons c ys => exact .inr rfl

/-- Mount resolution is longest-prefix.  After any history of calls, a path is resolved to what
was mounted last, and is still mounted, at the longest mount point that covers it, if there is one.
The relative path begins with a slash and names the path behind the mount point. -/
theorem mount_resolution_is_longest {isMounted : μ → Bool} {history : List (MountOp μ × Kerr)}
    (run : Run (MountTable.step isMounted) CanonicalPoint noMounts history t) (canonical : Canonical slash dot path) :
    match t.vfsResolveMountPath path with
    | none => ∀ point, Covers point path → mountedAt history point = none
    | some (m, rel) => ∃ point, Covers point path ∧ mountedAt history point = some m ∧
        (∀ other, Covers other path → mountedAt history other ≠ none → other.length ≤ point.length) ∧ rel.head? = some slash ∧
        (point = [slash] ∧ rel = path ∨ point ≠ [slash] ∧ point = path ∧ rel = [slash] ∨
          point ≠ [slash] ∧ point ≠ path ∧ point ++ rel = path) := by
  have search := (nothingMounted.run run).search canonical
  have isHead : path.head? = some slash := by
    obtain ⟨zs, -, rfl⟩ := canonical.exists_stack
    exact render_head zs
  rw [MountTable.vfsResolveMountPath, if_neg (not_not.mpr isHead)]
  cases found : (finRange mountMax).foldl (t.better path) none with
  | none =>
    rw [found] at search
    exact search
  | some best =>
    obtain ⟨m, n⟩ := best
    rw [found] at search
    obtain ⟨point, covers, mounted, rfl, longest⟩ := search
    by_cases isRoot : point = [slash]
    · simp only [if_pos (covers.root_iff.mpr isRoot)]
      exact ⟨point, covers, mounted, longest, isHead, .inl ⟨isRoot, trivial⟩⟩
    · obtain ⟨rest, rfl, next⟩ := covers.split isRoot
      simp only [if_neg (mt covers.root_iff.mp isRoot), drop_left]
      rcases next with rfl | next
      · rw [if_pos rfl]
        exact ⟨point, covers, mounted, longest, rfl, .inr (.inl ⟨isRoot, (append_nil point).symm, rfl⟩)⟩
      · have nonempty : rest ≠ [] := by
          rintro rfl
          cases next
        rw [if_neg nonempty]
        refine ⟨point, covers, mounted, longest, next, .inr (.inr ⟨isRoot, fun same => nonempty ?_, rfl⟩)⟩
        exact append_cancel_left (same.symm.trans (append_nil point).symm)

/-- `/dev` is mounted, the root below it, `/dev` again, and then a mount on top of `/dev` goes. -/
def sampleMounts : List (MountOp Nat) :=
  [.mount [slash, 100] (some 1), .mount [slash] (some 2), .mount [slash, 100] (some 3), .mount [slash, 100, slash, 97] (some 4),
    .umount [slash, 100, slash, 97]]

theorem mount_resolution_is_longest_sample :
    ∃ history t, Run (MountTable.step fun _ : Nat => true) CanonicalPoint noMounts history t ∧
      t.vfsResolveMountPath [slash, 100, slash, 97] = some (3, [slash, 97]) ∧
      ∃ point, Covers point [slash, 100, slash, 97] ∧ mountedAt history point = some 3 := by
  have run := Run.of_execute sampleMounts
    (show AllAllowed (MountTable.step fun _ => true) CanonicalPoint noMounts sampleMounts by decide +kernel)
  have resolved : (execute (MountTable.step fun _ => true) noMounts sampleMounts).2.vfsResolveMountPath [slash, 100, slash, 97]
    = some (3, [slash, 97]) := by decide +kernel
  have longest := mount_resolution_is_longest run (show Canonical slash dot [slash, 100, slash, 97] by decide)
  rw [resolved] at longest
  obtain ⟨point, covers, mounted, -⟩ := longest
  exact ⟨_, _, run, resolved, point, covers, mounted⟩

end GinnOS.Vfs
