import GinnOS.Memory.ProcessRuns

/-! # The memory that a program sees

`peek` is what a program reads at an address, `poke` its store.  The frames of user pages are kept by
everything the kernel does to back further pages, and the pages it backs read as zero
(`Held.mapFresh_contents`).
-/

namespace GinnOS.Memory

open Lib Lib.Buf

/-! ## Accesses in user mode -/

def isWritable (entry : Nat) : Bool := entry / 2 % 2 = 1

/-- The entry of the page, if a program may access it: both levels are present and for users. -/
def userEntry (mem : Buf) (d virt : Nat) : Option Nat :=
  let pde := entry mem d (dirIndex virt)
  let pte := entry mem (pageFrame pde) (tableIndex virt)
  if isPresent pde && isUser pde && (isPresent pte && isUser pte) then some pte else none

/-- The byte that a program reads. -/
def peek (mem : Buf) (d virt : Nat) : Option UInt8 :=
  (userEntry mem d virt).map fun e => mem (4096 * pageFrame e + virt % 4096)

/-- A store of a program.  All directory entries are writable, so the entry of the page decides. -/
def poke (m : Machine) (d virt : Nat) (value : UInt8) : Machine :=
  match userEntry m.mem d virt with
  | none => m
  | some e => if isWritable e then { m with mem := put8 m.mem (4096 * pageFrame e + virt % 4096) value } else m

variable {m m' : Machine} {ps : List (Nat × Nat)} {ds : List Nat} {d f g n p q flags virt : Nat}

theorem Held.userEntry_eq (held : Held m ps) (member : d ∈ dirs ps) (low : virt < 4294967296) :
    userEntry m.mem d virt =
      if isPresent (pte m.mem d (virt / 4096)) && isUser (pte m.mem d (virt / 4096)) then some (pte m.mem d (virt / 4096))
      else none := by
  have directory : dirIndex virt = virt / 4096 / 1024 := by
    rw [dirIndex]
    omega
  have table : tableIndex virt = virt / 4096 % 1024 := rfl
  have inner : virt / 4096 / 1024 < 1024 := by omega
  rw [userEntry, directory, table]
  cases isThere : isPresent (entry m.mem d (virt / 4096 / 1024)) with
  | false =>
    have none : pte m.mem d (virt / 4096) = 0 := by simp [pte, isThere]
    rw [none]
    rfl
  | true =>
    have here : pte m.mem d (virt / 4096) = entry m.mem (pageFrame (entry m.mem d (virt / 4096 / 1024))) (virt / 4096 % 1024) := by
      simp [pte, isThere]
    rw [← here]
    cases user : isUser (entry m.mem d (virt / 4096 / 1024)) with
    | true => rfl
    | false =>
      -- the table is the kernel's, which has no page for users
      have shared := held.marked.shared member inner user
      have supervisor := held.supervisor (virt / 4096) (by omega)
      have same : pte m.mem m.kernelDirectory (virt / 4096) = pte m.mem d (virt / 4096) := by simp only [pte, shared]
      rw [same] at supervisor
      rw [supervisor]
      simp

theorem peek_congr (held : Held m ps) (held' : Held m' ps) (member : d ∈ dirs ps) (low : virt < 4294967296)
    (view : pte m'.mem d (virt / 4096) = pte m.mem d (virt / 4096))
    (frame : isPresent (pte m.mem d (virt / 4096)) = true → isUser (pte m.mem d (virt / 4096)) = true →
      SameFrame (pageFrame (pte m.mem d (virt / 4096))) m.mem m'.mem) : peek m'.mem d virt = peek m.mem d virt := by
  rw [peek, peek, held.userEntry_eq member low, held'.userEntry_eq member low, view]
  cases isThere : isPresent (pte m.mem d (virt / 4096)) with
  | false => rfl
  | true =>
    cases user : isUser (pte m.mem d (virt / 4096)) with
    | false => rfl
    | true => exact congrArg some (frame isThere user _ (by omega))

/-! ## Frames that are kept -/

/-- The kernel does not write into the frame when it maps pages: it is in use and holds no table, or it is not RAM. -/
def Kept (m : Machine) (ds : List Nat) (f : Nat) : Prop := Loose m ds f ∨ m.pmm.totalPages ≤ f

theorem Kept.used (kept : Kept m ds f) (ok : m.pmm.Ok) : m.pmm.free f = false := by
  rcases kept with loose | outside
  · exact loose.used
  · cases isFree : m.pmm.free f with
    | false => rfl
    | true =>
      have inside := ok.inside isFree
      omega

theorem Kept.noNode (kept : Kept m ds f) (tables : Tables m ds) (node : Node) : ¬ NodeAt m.mem m.kernelDirectory ds node f := by
  rcases kept with loose | outside
  · exact loose.noNode node
  · intro at_
    have ram := (tables.owned at_).ram
    omega

theorem Held.kept_page (held : Held m ps) (member : d ∈ dirs ps) (bound : q < 1048576)
    (isThere : isPresent (pte m.mem d q) = true) (user : isUser (pte m.mem d q) = true) :
    Kept m (dirs ps) (pageFrame (pte m.mem d q)) := by
  rcases Nat.lt_or_ge (pageFrame (pte m.mem d q)) m.pmm.totalPages with ram | outside
  · exact .inl (held.loose (u := .page d q) ⟨member, bound, isThere, user, rfl, ram⟩)
  · exact .inr outside

theorem clear_inside (m : Machine) {x : Nat} (inside : x / 4096 = f) : (m.clear f).mem x = 0 := by
  show fill m.mem (4096 * f) 4096 0 x = 0
  rw [fill, splice_inside (by omega) (by omega)]

/-- A page is backed, or there is no memory for its table: frames in use are kept, and the new frame is clear. -/
theorem Held.page_contents (held : Held m ps) (member : d ∈ dirs ps) (bound : q < 1048576) (user : isUser flags = true)
    {m₁ m₂ : Machine} {ok : Bool} (allocated : allocPage m = (some f, m₁))
    (mapped : pagingMapIn (m₁.clear f) d (4096 * q) (4096 * f) flags = (ok, m₂)) :
    (∀ g, Kept m (dirs ps) g → SameFrame g m.mem m₂.mem ∧ Kept m₂ (dirs ps) g) ∧ m.pmm.free f = true ∧
      (ok = true → pte m₂.mem d q = pageEntry (4096 * f) flags ∧ ∀ x, x / 4096 = f → m₂.mem x = 0) := by
  obtain ⟨same, held₁, spare, taken, low, _⟩ := held.cleared allocated
  obtain ⟨pmm, _, rfl⟩ := allocPage_eq allocated
  have wasFree : m.pmm.free f = true := (pmmAllocPage_some taken).1
  have other {g : Nat} (kept : Kept m (dirs ps) g) : g ≠ f := by
    rintro rfl
    rw [kept.used held.tables.pmm] at wasFree
    cases wasFree
  rcases held₁.pagingMapIn_cases member bound user low mapped with ⟨rfl, done⟩ | ⟨rfl, none⟩
  · have directory : NodeAt m.mem m.kernelDirectory (dirs ps) (.directory d) d := ⟨member, rfl⟩
    have notKernel := same.tables.kernel_ne member
    -- the table was there, or it is as fresh as the page
    have notTable {g : Nat} (kept : Kept m (dirs ps) g) : g ≠ pageFrame (entry m₂.mem d (q / 1024)) := by
      rintro rfl
      rcases done.table with ⟨_, own, sameTable⟩ | ⟨_, fresh⟩
      · rw [same.kernel, same.entries d (List.mem_cons_of_mem _ member) _ (by omega),
          same.entries _ List.mem_cons_self _ (by omega)] at own
        rw [same.entries d (List.mem_cons_of_mem _ member) _ (by omega)] at sameTable
        exact kept.noNode held.tables (.table d (q / 1024)) ⟨member, by omega, own, sameTable⟩
      · have isFree := (pmmAllocPage_some fresh).1
        have wasUsed := pmmAllocPage_used taken (kept.used held.tables.pmm)
        exact absurd (wasUsed.symm.trans isFree) nofun
    have spareTable : f ≠ pageFrame (entry m₂.mem d (q / 1024)) := by
      rintro rfl
      rcases done.table with ⟨_, own, sameTable⟩ | ⟨_, fresh⟩
      · exact spare.loose.noNode (.table d (q / 1024)) ⟨member, by omega, own, sameTable⟩
      · have isFree := (pmmAllocPage_some fresh).1
        exact absurd (spare.loose.used.symm.trans isFree) nofun
    have spareDirectory : f ≠ d := by
      rintro rfl
      exact spare.loose.noNode (.directory f) ⟨member, rfl⟩
    refine ⟨fun g kept => ⟨fun x inside => ?_, ?_⟩, wasFree, fun _ => ⟨?_, fun x inside => ?_⟩⟩
    · have apart : g ≠ d := by
        rintro rfl
        exact kept.noNode held.tables _ directory
      rw [done.frames g apart (notTable kept) x inside]
      exact sameFrame_clear _ (other kept) x inside
    · refine kept.imp (fun loose => (same.loose g loose).mapped done bound member notKernel) fun outside => ?_
      rw [done.noted.total, same.total]
      exact outside
    · rw [done.view d (List.mem_cons_of_mem _ member) q bound, if_pos ⟨rfl, rfl⟩]
    · rw [done.frames f spareDirectory spareTable x inside, clear_inside _ inside]
  · have unchanged := same.trans (none.undisturbed same.tables same.marked)
    refine ⟨fun g kept => ⟨fun x inside => ?_, ?_⟩, wasFree, nofun⟩
    · rw [none.mem]
      exact sameFrame_clear _ (other kept) x inside
    · refine kept.imp (unchanged.loose g) fun outside => ?_
      rw [unchanged.total]
      exact outside

/-- Each page of the range has a fresh frame, and reads as zero. -/
def Zeroed (m m' : Machine) (d flags p n : Nat) : Prop := ∀ q, InRange p n q → ∃ f, pte m'.mem d q = pageEntry (4096 * f) flags ∧
  m.pmm.free f = true ∧ f < m.pmm.totalPages ∧ ∀ x, x / 4096 = f → m'.mem x = 0

theorem Ready.mapFresh_contents (ready : Ready ps d m) (flagged : ForUsers flags) (bound : p + n ≤ 1048576) :
    (∀ g, Kept m (dirs ps) g → SameFrame g m.mem (mapFresh d flags m n (4096 * p)).2.mem) ∧
      (Backable m d p n → (mapFresh d flags m n (4096 * p)).1 = true → Zeroed m (mapFresh d flags m n (4096 * p)).2 d flags p n) := by
  induction n generalizing m p with
  | zero =>
    refine ⟨fun _ _ _ _ => rfl, fun _ _ q inside => ?_⟩
    obtain ⟨lower, upper⟩ := inside
    omega
  | succ n ih =>
    simp only [mapFresh]
    cases allocated : allocPage m with
    | mk r m₁ =>
      cases r with
      | none =>
        obtain rfl := allocPage_none ready.held.tables.pmm allocated
        exact ⟨fun _ _ _ _ => rfl, fun _ success => by cases success⟩
      | some f =>
        cases mapped : pagingMapIn (m₁.clear f) d (4096 * p) (4096 * f) flags with
        | mk mappedOk m₂ =>
          simp only [mapped]
          obtain ⟨isThere, user⟩ := id flagged
          obtain ⟨kept, wasFree, backed⟩ := ready.held.page_contents ready.member (by omega) user allocated mapped
          have act : Act d (fun _ q _ => q = p) m m₂ := .page (by omega) isThere user allocated mapped rfl
          have acted : Acted ps d (fun q => q = p) m m₂ := act.acted ready fun _ _ _ known => known
          have ready₂ := acted.ready ready
          obtain ⟨keptRest, zeroedRest⟩ := ih ready₂ (p := p + 1) (by omega)
          rw [show 4096 * (p + 1) = 4096 * p + 4096 by omega] at keptRest zeroedRest
          refine ⟨fun g keep x inside => ?_, fun backable success => ?_⟩
          · obtain ⟨first, still⟩ := kept g keep
            rw [keptRest g still x inside, first x inside]
          have ok := ready.held.tables.pmm
          obtain ⟨isMapped, _, rest⟩ := ready.page_backed bound flagged allocated mapped acted backable
          obtain ⟨first, zero⟩ := backed isMapped
          intro q inside
          by_cases isFirst : q = p
          · subst isFirst
            have frame : pageFrame (pageEntry (4096 * f) flags) = f := by
              rw [pageFrame_pageEntry]
              omega
            have outside : ¬ InRange (q + 1) n q := by
              rintro ⟨lower, _⟩
              omega
            have unchanged : pte (mapFresh d flags m₂ n (4096 * q + 4096)).2.mem d q = pte m₂.mem d q := by
              have restActed := ready₂.mapFresh_acted (n := n) (p := q + 1) flagged (by omega)
              rw [show 4096 * (q + 1) = 4096 * q + 4096 by omega] at restActed
              exact restActed.view d ready₂.listed q (by omega) fun here => outside here.2
            have still := acted.held.kept_page ready.member (q := q) (by omega) (by rw [first, isPresent_pageEntry, isThere])
              (by rw [first, isUser_pageEntry, user])
            rw [first, frame] at still
            refine ⟨f, by rw [unchanged, first], wasFree, ok.inside wasFree, fun x inside => ?_⟩
            rw [keptRest f still x inside, zero x inside]
          · obtain ⟨lower, upper⟩ := inside
            obtain ⟨f', view, free, ram, zero⟩ := zeroedRest rest success q ⟨by omega, by omega⟩
            have wasFree' : m.pmm.free f' = true := by
              cases isFree : m.pmm.free f' with
              | true => rfl
              | false =>
                rw [acted.used f' isFree] at free
                cases free
            exact ⟨f', view, wasFree', ok.inside wasFree', zero⟩

end GinnOS.Memory
