import GinnOS.Ext2.Walkers

/-! # The entries of a directory

The records of a directory are `.`, `..` and the entries proper
(`IsDirectory`).  What the directory means is its `listing`: the live entries
without their lengths and dead neighbours.  Each change that the
driver makes to the records is described on the listing: one entry more
(`insert_at`, `insert_end`), one less (`kill`), one with another name (`rename`),
or the same entries below another parent (`relink`).
-/

namespace GinnOS.Ext2

open Lib Lib.Buf List

variable {r : Rec} {name : List UInt8} {child : Nat} {fileType : UInt8} {rs : List Rec}

/-- A name that an entry other than `.` and `..` can have. -/
def ProperName (name : List UInt8) : Prop := name ≠ [] ∧ name ≠ [dot] ∧ name ≠ [dot, dot]

/-- The records of directory `d`: `.`, `..` and the rest. -/
structure DirForm (d : Nat) (own up : Rec) (body : List Rec) : Prop where
  ownInode : own.inode.toNat = d
  ownLen : own.len = 12
  ownName : own.name = [dot]
  ownType : own.fileType = ftDir
  ownLive : own.live = true
  upName : up.name = [dot, dot]
  upType : up.fileType = ftDir
  upLive : up.live = true
  named : ∀ r, r ∈ body → r.live = true → ProperName r.name

def IsDirectory (d : Nat) (rs : List Rec) : Prop :=
  ∃ own up body, rs = own :: up :: body ∧ DirForm d own up body

def liveEntries (rs : List Rec) : List DirectoryEntry := (rs.filter Rec.live).map Rec.listed

@[simp] theorem liveEntries_nil : liveEntries [] = [] := rfl

@[simp] theorem liveEntries_append (rs ts : List Rec) :
    liveEntries (rs ++ ts) = liveEntries rs ++ liveEntries ts := by
  simp [liveEntries]

theorem liveEntries_cons_live (live : r.live = true) (rs : List Rec) :
    liveEntries (r :: rs) = r.listed :: liveEntries rs := by
  simp [liveEntries, live]

theorem liveEntries_cons_dead (dead : r.live = false) (rs : List Rec) :
    liveEntries (r :: rs) = liveEntries rs := by
  simp [liveEntries, dead]

/-- The entries after `.` and `..`. -/
def listing (rs : List Rec) : List DirectoryEntry := liveEntries (rs.drop 2)

/-- The inode that `..` names. -/
def upOf : List Rec → Nat
  | _ :: up :: _ => up.inode.toNat
  | _ => 0

/-- `new` is `old` with `e` at some place. -/
def Inserted (e : DirectoryEntry) (old new : List DirectoryEntry) : Prop :=
  ∃ front back, old = front ++ back ∧ new = front ++ e :: back

namespace Inserted

variable {e : DirectoryEntry} {old new : List DirectoryEntry} (inserted : Inserted e old new)

include inserted

theorem perm : new.Perm (e :: old) := by
  obtain ⟨front, back, rfl, rfl⟩ := inserted
  exact perm_middle

theorem find_eq {p : DirectoryEntry → Bool} (other : p e = false) : new.find? p = old.find? p := by
  obtain ⟨front, back, rfl, rfl⟩ := inserted
  simp [find?_append, other]

end Inserted

theorem inode_ofNat {n : Nat} (bound : n < 4294967296) (positive : n ≠ 0) :
    (UInt32.ofNat n).toNat = n ∧ (UInt32.ofNat n != 0) = true := by
  have number : (UInt32.ofNat n).toNat = n := UInt32.toNat_ofNat_of_lt' bound
  refine ⟨number, ?_⟩
  simp only [bne_iff_ne, ne_eq]
  intro zero
  rw [zero] at number
  exact positive number.symm

namespace IsDirectory

variable {d : Nat} {before after : List Rec} {r : Rec}

section

variable (directory : IsDirectory d (before ++ r :: after))

include directory

theorem replace (ms : List Rec)
    (behind : 2 ≤ before.length)
    (named : ∀ m, m ∈ ms → m.live = true → ProperName m.name) :
    IsDirectory d (before ++ (ms ++ after)) ∧
      upOf (before ++ (ms ++ after)) = upOf (before ++ r :: after) ∧
      ∃ front back, listing (before ++ r :: after) = front ++ (liveEntries [r] ++ back) ∧
        listing (before ++ (ms ++ after)) = front ++ (liveEntries ms ++ back) := by
  obtain ⟨own, up, body, records, form⟩ := directory
  match before, behind, records with
  | _ :: _ :: front, _, records =>
    obtain ⟨rfl, tail⟩ := cons.inj records
    obtain ⟨rfl, rfl⟩ := cons.inj tail
    refine ⟨⟨_, _, front ++ (ms ++ after), rfl, { form with named := ?_ }⟩, rfl,
      liveEntries front, liveEntries after, ?_, ?_⟩
    rotate_left
    · change liveEntries (front ++ ([r] ++ after)) = _
      rw [liveEntries_append, liveEntries_append]
    · change liveEntries (front ++ (ms ++ after)) = _
      rw [liveEntries_append, liveEntries_append]
    intro m known
    rcases mem_append.mp known with early | late
    · exact form.named m (mem_append_left _ early)
    · rcases mem_append.mp late with new | old
      · exact named m new
      · exact form.named m (mem_append_right _ (mem_cons_of_mem _ old))

/-- A proper record comes after `.` and `..`. -/
theorem behind_dots (proper : ProperName r.name) :
    2 ≤ before.length := by
  obtain ⟨own, up, body, records, form⟩ := directory
  match before, records with
  | [], records =>
    obtain ⟨rfl, _⟩ := cons.inj records
    exact absurd form.ownName proper.2.1
  | [_], records =>
    obtain ⟨rfl, tail⟩ := cons.inj records
    obtain ⟨rfl, _⟩ := cons.inj tail
    exact absurd form.upName proper.2.2
  | _ :: _ :: front, _ => simp

/-- `remove_directory_entry` takes one entry out. -/
theorem kill (live : r.live = true)
    (proper : ProperName r.name) :
    IsDirectory d (before ++ r.killed :: after) ∧
      upOf (before ++ r.killed :: after) = upOf (before ++ r :: after) ∧
      Inserted r.listed (listing (before ++ r.killed :: after)) (listing (before ++ r :: after)) := by
  have dead : r.killed.live = false := rfl
  obtain ⟨still, up, front, back, old, new⟩ := directory.replace [r.killed]
    (directory.behind_dots proper) (by simp [dead])
  rw [liveEntries_cons_dead dead] at new
  rw [liveEntries_cons_live live] at old
  exact ⟨still, up, front, back, new, old⟩

/-- `update_directory_entry_name` gives one entry another name. -/
theorem rename
    (live : r.live = true) (proper : ProperName r.name) (newProper : ProperName name) :
    IsDirectory d (before ++ { r with name := name } :: after) ∧
      upOf (before ++ { r with name := name } :: after) = upOf (before ++ r :: after) ∧
      ∃ front back, listing (before ++ r :: after) = front ++ r.listed :: back ∧
        listing (before ++ { r with name := name } :: after) =
          front ++ { r.listed with name := name } :: back := by
  obtain ⟨still, up, front, back, old, new⟩ := directory.replace [{ r with name := name }]
    (directory.behind_dots proper) (by simpa using fun _ => newProper)
  rw [liveEntries_cons_live live] at old
  rw [liveEntries_cons_live (r := { r with name := name }) live] at new
  exact ⟨still, up, front, back, old, new⟩

/-- A new entry in the room of an old record; `.` has none, and that of `..` comes after it. -/
theorem insert_at
    (bound : child < 4294967296)
    (positive : child ≠ 0) (proper : ProperName name)
    (room : r.hasRoom (dirEntrySize name.length) = true) :
    IsDirectory d (before ++ (r.filled child name fileType ++ after)) ∧
      upOf (before ++ (r.filled child name fileType ++ after)) = upOf (before ++ r :: after) ∧
      Inserted ⟨child, fileType, 0, name⟩ (listing (before ++ r :: after))
        (listing (before ++ (r.filled child name fileType ++ after))) := by
  obtain ⟨number, nonzero⟩ := inode_ofNat bound positive
  have alive (len : Nat) : Rec.live ⟨UInt32.ofNat child, len, fileType, name⟩ = true := nonzero
  have entry (len : Nat) : Rec.listed ⟨UInt32.ofNat child, len, fileType, name⟩ =
      ⟨child, fileType, 0, name⟩ := by
    simp only [Rec.listed, number]
  obtain ⟨own, up, body, records, form⟩ := directory
  rcases before with _ | ⟨first, _ | ⟨second, front⟩⟩
  · obtain ⟨rfl, _⟩ := cons.inj records
    have needed := header_le_dirEntrySize name.length
    simp only [Rec.hasRoom, form.ownLive, form.ownName, form.ownLen, if_true, decide_eq_true_eq,
      show dirEntrySize [dot].length = 12 from rfl, headerSize] at room needed
    omega
  · obtain ⟨rfl, tail⟩ := cons.inj records
    obtain ⟨rfl, rfl⟩ := cons.inj tail
    simp only [Rec.filled, form.upLive, if_true]
    refine ⟨⟨_, _, _, rfl, { form with named := ?_ }⟩, rfl, ?_⟩
    · intro m known
      rcases mem_cons.mp known with rfl | old
      · exact fun _ => proper
      · exact form.named m old
    · refine ⟨[], liveEntries after, rfl, ?_⟩
      change liveEntries (_ :: after) = _
      rw [liveEntries_cons_live (alive _), entry, nil_append]
  · have directory : IsDirectory d ((_ :: _ :: front) ++ r :: after) := ⟨own, up, body, records, form⟩
    obtain ⟨rfl, tail⟩ := cons.inj records
    obtain ⟨rfl, rfl⟩ := cons.inj tail
    cases live : r.live with
    | true =>
      obtain ⟨still, same, front, back, old, new⟩ := directory.replace
        [{ r with len := dirEntrySize r.name.length },
          ⟨UInt32.ofNat child, r.len - dirEntrySize r.name.length, fileType, name⟩] (by simp) (by
        intro m known _
        rcases mem_cons.mp known with rfl | known
        · exact form.named r (by simp) live
        · rw [mem_singleton] at known
          rw [known]
          exact proper)
      simp only [Rec.filled, live, if_true]
      rw [liveEntries_cons_live (r := { r with len := dirEntrySize r.name.length }) live,
        liveEntries_cons_live (alive _), entry] at new
      rw [liveEntries_cons_live live] at old
      exact ⟨still, same, front ++ [r.listed], back, by simpa using old, by simpa [Rec.listed] using new⟩
    | false =>
      obtain ⟨still, same, front, back, old, new⟩ := directory.replace
        [⟨UInt32.ofNat child, r.len, fileType, name⟩] (by simp) (by simpa using fun _ => proper)
      simp only [Rec.filled, live, Bool.false_eq_true, if_false]
      rw [liveEntries_cons_live (alive _), entry] at new
      rw [liveEntries_cons_dead live] at old
      exact ⟨still, same, front, back, old, new⟩

end

theorem insert_end {len : Nat}
    (directory : IsDirectory d rs) (bound : child < 4294967296) (positive : child ≠ 0)
    (proper : ProperName name) :
    IsDirectory d (rs ++ [⟨UInt32.ofNat child, len, fileType, name⟩]) ∧
      upOf (rs ++ [⟨UInt32.ofNat child, len, fileType, name⟩]) = upOf rs ∧
      Inserted ⟨child, fileType, 0, name⟩ (listing rs)
        (listing (rs ++ [⟨UInt32.ofNat child, len, fileType, name⟩])) := by
  obtain ⟨number, nonzero⟩ := inode_ofNat bound positive
  have alive : Rec.live ⟨UInt32.ofNat child, len, fileType, name⟩ = true := nonzero
  obtain ⟨own, up, body, rfl, form⟩ := directory
  refine ⟨⟨own, up, _, rfl, { form with named := ?_ }⟩, rfl, ?_⟩
  · intro m known
    rcases mem_append.mp known with old | new
    · exact form.named m old
    · rw [mem_singleton] at new
      rw [new]
      exact fun _ => proper
  · refine ⟨liveEntries body, [], (append_nil _).symm, ?_⟩
    change liveEntries (body ++ _) = _
    rw [liveEntries_append, liveEntries_cons_live alive, liveEntries_nil]
    simp only [Rec.listed, number]

/-- `update_directory_parent_link` changes what `..` names. -/
theorem relink {own up : Rec} {body : List Rec} {parent : Nat}
    (records : rs = own :: up :: body) (directory : IsDirectory d rs) (bound : parent < 4294967296)
    (positive : parent ≠ 0) :
    IsDirectory d (own :: { up with inode := UInt32.ofNat parent } :: body) ∧
      upOf (own :: { up with inode := UInt32.ofNat parent } :: body) = parent ∧
      listing (own :: { up with inode := UInt32.ofNat parent } :: body) = listing rs := by
  obtain ⟨number, nonzero⟩ := inode_ofNat bound positive
  obtain ⟨own', up', body', records', form⟩ := directory
  rw [records] at records'
  obtain ⟨rfl, tail⟩ := cons.inj records'
  obtain ⟨rfl, rfl⟩ := cons.inj tail
  exact ⟨⟨_, _, _, rfl, { form with upLive := nonzero }⟩, number, by rw [records]; rfl⟩

end IsDirectory

end GinnOS.Ext2
