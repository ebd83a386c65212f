import TinyHTTP.Lib.Run
import TinyHTTP.Http.Send

/-!
# TinyHTTP — the mapped file of a connection object

`do_request` maps the file, `write` unmaps it with the length in `m_file_stat`. A
connection that ends in between leaves the mapping to the next one, which may
overwrite the address or the length.

* `mapping_step` — a step keeps one mapping for an address, with its length, if no
  `stat` succeeds while there is one and every `mmap` succeeds.
* `mapping_ok` — so does a run; and a step that is not so does not.
-/

namespace TinyHTTP.Http

open TinyHTTP.Lib

/-- A mapping that the slot has made, and its length. -/
structure Mapping where
  number : Nat
  length : Nat
  deriving DecidableEq

/-- A system call, with the mappings that were live before it. -/
inductive MapCall where
  | mmap (m : Mapping) (live : List Mapping)
  /-- of the mapping at the address, if there is one, with a length -/
  | munmap (target : Option Mapping) (length : Nat) (live : List Mapping)
  deriving DecidableEq

/-- An element of `users`, and its mappings. -/
structure Slot where
  conn : HttpConn
  connected : Bool
  /-- the mapping that `m_file_address` points to -/
  target : Option Mapping
  live : List Mapping
  calls : List MapCall
  /-- the number of the next mapping -/
  next : Nat

inductive SlotLabel where
  /-- a new connection: `init(connfd, client_address)` -/
  | accept
  | readOnce (recv : Recv)
  /-- `process()` in a worker thread -/
  | process (w : World)
  | write (outs : List Writev)
  /-- `cb_func`, or the hangup of the client -/
  | cutOff

/-- The `mmap` of `do_request` has left its result in `c`. -/
def Slot.mmap (s : Slot) (c : HttpConn) : Slot :=
  match c.fileAddress with
  | .mapped _ =>
    let m : Mapping := ⟨s.next, c.fileStat.size⟩
    { s with
      target := some m
      live := s.live ++ [m]
      calls := s.calls ++ [.mmap m s.live]
      next := s.next + 1 }
  | _ => { s with target := none }

/-- `munmap(m_file_address, m_file_stat.st_size)`; only a mapping with its own length goes. -/
def Slot.munmap (s : Slot) : Slot :=
  { s with
    target := none
    live := s.live.filter fun m => !(s.target = some m && m.length = s.conn.fileStat.size)
    calls := s.calls ++ [.munmap s.target s.conn.fileStat.size s.live] }

def FileAddress.isNull : FileAddress → Bool
  | .null => true
  | _ => false

def Slot.step (s : Slot) : SlotLabel → Option Slot
  | .accept =>
    if s.connected then none else some { s with conn := s.conn.init, connected := true }
  | .readOnce recv =>
    let (c, ok) := s.conn.readOnce recv
    some { s with conn := c, connected := s.connected && ok }
  | .process w =>
    match s.conn.processRead w with
    | .error _ => none
    | .ok (_, c, code) =>
      let s := if code = .fileRequest then s.mmap c else s
      let (c, effect) := c.answer code
      some { s with conn := c, connected := s.connected && decide (effect ≠ .closeConn) }
  | .write outs =>
    match s.conn.write outs with
    | none => none
    | some r =>
      -- `unmap()` has found an address
      let s := if r.conn.fileAddress.isNull && !s.conn.fileAddress.isNull then s.munmap else s
      some { s with conn := r.conn, connected := s.connected && r.ok }
  | .cutOff => if s.connected then some { s with connected := false } else none

/-- The array is new, and its memory zero; the constructor does not set `m_file_address`. -/
structure SlotInitial (s : Slot) : Prop where
  conn : s.conn.fileAddress = .null
  connected : s.connected = false
  live : s.live = []
  calls : s.calls = []

/-- An address has one mapping, and every mapping goes with its length before the next comes. -/
structure MappingOk (s : Slot) : Prop where
  address : s.conn.fileAddress ≠ .null ↔
    ∃ m, s.live = [m] ∧ s.target = some m ∧ m.length = s.conn.fileStat.size
  released : s.conn.fileAddress = .null → s.live = []
  unmaps : ∀ target length live, .munmap target length live ∈ s.calls →
    ∃ m, target = some m ∧ m ∈ live ∧ m.length = length
  separate : ∀ m live, .mmap m live ∈ s.calls → live = []

/-- The file that `stat` finds, if `process_read` gets there. -/
def HttpConn.statted (w : World) (c : HttpConn) : Option FileNode :=
  match Http.processRead c.parser with
  | .ok (.doRequest, s) =>
    match resolve w s c.realFile with
    | .ok (w, _, real) =>
      match cstring real filenameLen 0 with
      | .ok path => w.file path
      | .error _ => none
    | .error _ => none
  | _ => none

/-- A file that anyone may read, and no directory: `do_request` maps it. -/
def FileNode.opened (node : FileNode) : Bool := node.stat.othersRead && !node.stat.isDir

/-- `stat` finds a file only when nothing is mapped, and `mmap` does not fail; behind a mapping it
may find a file of the same size that is not to be mapped. -/
def Unoccupied (s : Slot) : SlotLabel → Prop
  | .process w => ∀ node ∈ s.conn.statted w,
      if s.conn.fileAddress.isNull then node.opened = true → node.mapping.isSome = true
      else node.opened = false ∧ node.stat.size = s.conn.fileStat.size
  | _ => True

instance (s : Slot) (l : SlotLabel) : Decidable (Unoccupied s l) :=
  match l with
  | .process w => inferInstanceAs (Decidable (∀ node ∈ s.conn.statted w,
      if s.conn.fileAddress.isNull then node.opened = true → node.mapping.isSome = true
      else node.opened = false ∧ node.stat.size = s.conn.fileStat.size))
  | .accept | .readOnce _ | .write _ | .cutOff => inferInstanceAs (Decidable True)

theorem FileAddress.isNull_iff {a : FileAddress} : a.isNull = true ↔ a = .null := by
  cases a <;> simp [FileAddress.isNull]

-- ---------------------------------------------------------------------------
-- What the functions do to the mapping
-- ---------------------------------------------------------------------------

/-- The address and the length are those of another object. -/
def SameFile (c c' : HttpConn) : Prop :=
  c'.fileAddress = c.fileAddress ∧ c'.fileStat = c.fileStat

theorem SameFile.trans {c c' c'' : HttpConn} (h : SameFile c c') (h' : SameFile c' c'') :
    SameFile c c'' := ⟨h'.1.trans h.1, h'.2.trans h.2⟩

theorem sameFile_addResponse (c : HttpConn) (text : List UInt8) :
    SameFile c (c.addResponse text).1 := by
  unfold HttpConn.addResponse
  split
  · exact ⟨rfl, rfl⟩
  split
  · exact ⟨rfl, rfl⟩
  · exact ⟨rfl, rfl⟩

theorem sameFile_addHeaders (c : HttpConn) (n : Int) : SameFile c (c.addHeaders n) :=
  ((sameFile_addResponse c _).trans (sameFile_addResponse _ _)).trans (sameFile_addResponse _ _)

theorem sameFile_useIfAdded {c : HttpConn} {r : HttpConn × Bool} (h : SameFile c r.1) :
    SameFile c (useIfAdded r).1 := by
  obtain ⟨c', ok⟩ := r
  cases ok <;> exact h

theorem sameFile_addError (c : HttpConn) (status : Nat) (title form : List UInt8) :
    SameFile c (c.addError status title form).1 := by
  refine sameFile_useIfAdded (SameFile.trans ?_ (sameFile_addResponse _ _))
  exact (sameFile_addResponse c _).trans (sameFile_addHeaders _ _)

theorem sameFile_processWrite (c : HttpConn) (code : HttpCode) :
    SameFile c (c.processWrite code).1 := by
  unfold HttpConn.processWrite
  cases code with
  | internalError => exact sameFile_addError c 500 error500Title error500Form
  | badRequest => exact sameFile_addError c 404 error404Title error404Form
  | forbiddenRequest => exact sameFile_addError c 403 error403Title error403Form
  | fileRequest =>
    have hstatus : SameFile c (c.addStatusLine 200 ok200Title).1 := sameFile_addResponse c _
    dsimp only
    generalize (c.addStatusLine 200 ok200Title).1 = c₁ at hstatus
    split
    · have hheaders := sameFile_addHeaders c₁ (toInt32 c₁.fileStat.size)
      exact hstatus.trans ⟨hheaders.1, hheaders.2⟩
    · have hheaders := sameFile_addHeaders c₁ okString.length
      exact (hstatus.trans hheaders).trans (sameFile_addResponse _ okString)
  | noRequest | getRequest | noResource | closedConnection => exact ⟨rfl, rfl⟩

theorem sameFile_answer (c : HttpConn) (code : HttpCode) : SameFile c (c.answer code).1 := by
  have hwrite := sameFile_processWrite c code
  unfold HttpConn.answer
  split
  · exact ⟨rfl, rfl⟩
  · revert hwrite
    generalize c.processWrite code = r
    obtain ⟨c', ok⟩ := r
    intro hwrite
    cases ok <;> exact hwrite

/-- What `process_read` does to the file: nothing, if `stat` finds none. -/
theorem processRead_file {w w' : World} {c c' : HttpConn} {code : HttpCode}
    (h : c.processRead w = .ok (w', c', code)) :
    match c.statted w with
    | none => SameFile c c' ∧ code ≠ .fileRequest
    | some node => c'.fileStat = node.stat ∧
        if node.opened then c'.fileAddress = node.mmap ∧ code = .fileRequest
        else c'.fileAddress = c.fileAddress ∧ code ≠ .fileRequest := by
  rcases processRead_cases h with ⟨s, hread, rfl⟩ | ⟨s, s', real, path, hread, hreal, hpath, hopen⟩
  · have hcode : code ≠ .fileRequest := by
      rcases processReadLoop_code hread with rfl | rfl
      · nofun
      · nofun
    simp only [HttpConn.statted, hread]
    exact ⟨⟨rfl, rfl⟩, hcode⟩
  · simp only [HttpConn.statted, hread, hreal, hpath]
    unfold HttpConn.openFile at hopen
    cases hfile : w'.file path with
    | none =>
      simp only [hfile] at hopen ⊢
      cases hopen
      exact ⟨⟨rfl, rfl⟩, nofun⟩
    | some node =>
      simp only [hfile] at hopen ⊢
      unfold FileNode.opened
      split at hopen
      · rename_i hread
        cases hopen
        rw [hread]
        exact ⟨rfl, rfl, nofun⟩
      rename_i hread
      rw [Bool.not_eq_false] at hread
      split at hopen
      · rename_i hdir
        cases hopen
        rw [hread, hdir]
        exact ⟨rfl, rfl, nofun⟩
      · rename_i hdir
        rw [Bool.not_eq_true] at hdir
        cases hopen
        rw [hread, hdir]
        exact ⟨rfl, rfl, rfl⟩

/-- `write` leaves the length alone, and the address unless it unmaps. -/
theorem writeLoop_file {outs : List Writev} {c : HttpConn} {r : WriteResult}
    (h : writeLoop outs c = some r) :
    r.conn.fileStat = c.fileStat ∧
      (r.conn.fileAddress = c.fileAddress ∨ r.conn.fileAddress = .null) := by
  induction outs generalizing c r with
  | nil => cases h
  | cons out rest ih =>
    cases out with
    | eagain =>
      simp only [writeLoop] at h
      split at h
      · cases h
        exact ⟨rfl, .inl rfl⟩
      · cases h
    | error =>
      simp only [writeLoop] at h
      split at h
      · cases h
        exact ⟨rfl, .inr rfl⟩
      · cases h
    | sent n =>
      have hadvance : SameFile c (c.advance n) := by
        unfold HttpConn.advance
        dsimp only
        split
        · exact ⟨rfl, rfl⟩
        · exact ⟨rfl, rfl⟩
      simp only [writeLoop] at h
      split at h
      · split at h
        · split at h
          · cases h
            dsimp only
            split
            · exact ⟨hadvance.2, .inr rfl⟩
            · exact ⟨hadvance.2, .inr rfl⟩
          · cases h
        · obtain ⟨r', hr', rfl⟩ := Option.map_eq_some_iff.mp h
          obtain ⟨hstat, haddress⟩ := ih hr'
          exact ⟨hstat.trans hadvance.2, haddress.imp (·.trans hadvance.1) id⟩
      · cases h

theorem write_file {outs : List Writev} {c : HttpConn} {r : WriteResult}
    (h : c.write outs = some r) :
    r.conn.fileStat = c.fileStat ∧
      (r.conn.fileAddress = c.fileAddress ∨ r.conn.fileAddress = .null) := by
  unfold HttpConn.write at h
  split at h
  · split at h
    · cases h
      exact ⟨rfl, .inl rfl⟩
    · cases h
  · exact writeLoop_file h

-- ---------------------------------------------------------------------------
-- Steps
-- ---------------------------------------------------------------------------

theorem mappingOk_initial {s : Slot} (h : SlotInitial s) : MappingOk s where
  address := by
    rw [h.live]
    exact iff_of_false (fun hne => hne h.conn) nofun
  released := fun _ => h.live
  unmaps := by
    rw [h.calls]
    exact nofun
  separate := by
    rw [h.calls]
    exact nofun

section
variable {s s' : Slot}

/-- No mapping comes or goes, and the one that is there keeps its length. -/
theorem MappingOk.keep (h : MappingOk s)
    (haddress : s'.conn.fileAddress = s.conn.fileAddress)
    (hsize : s.conn.fileAddress ≠ .null → s'.conn.fileStat.size = s.conn.fileStat.size)
    (htarget : s'.target = s.target) (hlive : s'.live = s.live) (hcalls : s'.calls = s.calls) :
    MappingOk s' where
  address := by
    rw [haddress, htarget, hlive]
    by_cases hnull : s.conn.fileAddress = .null
    · rw [h.released hnull]
      exact iff_of_false (fun hne => hne hnull) nofun
    · rw [hsize hnull]
      exact h.address
  released := by
    rw [haddress, hlive]
    exact h.released
  unmaps := by
    rw [hcalls]
    exact h.unmaps
  separate := by
    rw [hcalls]
    exact h.separate

/-- A file is mapped where none was. -/
theorem MappingOk.map (h : MappingOk s) (hnull : s.conn.fileAddress = .null) {c c' : HttpConn}
    (content : List UInt8) (hmapped : c.fileAddress = .mapped content) (hsame : SameFile c c')
    {connected : Bool} : MappingOk { s.mmap c with conn := c', connected := connected } := by
  have hnone : s.live = [] := h.released hnull
  have haddress : c'.fileAddress = .mapped content := hsame.1.trans hmapped
  unfold Slot.mmap
  rw [hmapped]
  refine ⟨?_, fun hn => ?_, fun target length live hmem => ?_, fun m live hmem => ?_⟩
  · refine iff_of_true ?_ ⟨⟨s.next, c.fileStat.size⟩, ?_, rfl, ?_⟩
    · dsimp only
      rw [haddress]
      nofun
    · dsimp only
      rw [hnone]
      rfl
    · dsimp only
      rw [hsame.2]
  · dsimp only at hn
    rw [haddress] at hn
    cases hn
  · rcases List.mem_append.mp hmem with hmem | hmem
    · exact h.unmaps target length live hmem
    · cases List.mem_singleton.mp hmem
  · rcases List.mem_append.mp hmem with hmem | hmem
    · exact h.separate m live hmem
    · cases List.mem_singleton.mp hmem
      exact hnone

/-- The mapping goes, with its length. -/
theorem MappingOk.unmap (h : MappingOk s) (hne : s.conn.fileAddress ≠ .null) {c : HttpConn}
    (hnull : c.fileAddress = .null) {connected : Bool} :
    MappingOk { s.munmap with conn := c, connected := connected } := by
  obtain ⟨m, hlive, htarget, hlength⟩ := h.address.mp hne
  have hgone : s.munmap.live = [] := by
    simp [Slot.munmap, hlive, htarget, hlength]
  refine ⟨?_, fun _ => hgone, fun target length live hmem => ?_, fun m live hmem => ?_⟩
  · refine iff_of_false (fun hn => hn hnull) ?_
    rintro ⟨m', hlive', -⟩
    cases hgone.symm.trans hlive'
  · rcases List.mem_append.mp hmem with hmem | hmem
    · exact h.unmaps target length live hmem
    · cases List.mem_singleton.mp hmem
      exact ⟨m, htarget, by rw [hlive]; exact List.mem_singleton_self m, hlength⟩
  · rcases List.mem_append.mp hmem with hmem | hmem
    · exact h.separate m live hmem
    · cases List.mem_singleton.mp hmem

/-- A step of a worker. -/
theorem process_cases {w : World} (hs : s.step (.process w) = some s') :
    ∃ w' c code, s.conn.processRead w = .ok (w', c, code) ∧
      s' = { (if code = .fileRequest then s.mmap c else s) with
        conn := (c.answer code).1
        connected := s.connected && decide ((c.answer code).2 ≠ .closeConn) } := by
  simp only [Slot.step] at hs
  split at hs
  · cases hs
  · rename_i w' c code hread
    refine ⟨w', c, code, hread, ?_⟩
    obtain rfl := Option.some.inj hs
    split
    · unfold Slot.mmap
      split <;> rfl
    · rfl

theorem MappingOk.process (h : MappingOk s) {w : World} (hok : Unoccupied s (.process w))
    (hs : s.step (.process w) = some s') : MappingOk s' := by
  obtain ⟨w', c, code, hread, rfl⟩ := process_cases hs
  have hfile := processRead_file hread
  have hanswer := sameFile_answer c code
  cases hstat : s.conn.statted w with
  | none =>
    simp only [hstat] at hfile
    obtain ⟨hsame, hcode⟩ := hfile
    rw [if_neg hcode]
    have hsame' := hsame.trans hanswer
    exact h.keep hsame'.1 (fun _ => congrArg FileStat.size hsame'.2) rfl rfl rfl
  | some node =>
    simp only [hstat] at hfile
    obtain ⟨hsize, hopened⟩ := hfile
    have hnode := hok node hstat
    split at hopened
    · rename_i hopen
      obtain ⟨haddress, hcode⟩ := hopened
      rw [if_pos hcode]
      split at hnode
      · rename_i hnull
        obtain ⟨content, hcontent⟩ := Option.isSome_iff_exists.mp (hnode hopen)
        refine h.map (FileAddress.isNull_iff.mp hnull) content ?_ hanswer
        rw [haddress, FileNode.mmap, hcontent]
      · cases hopen.symm.trans hnode.1
    · obtain ⟨haddress, hcode⟩ := hopened
      rw [if_neg hcode]
      refine h.keep (hanswer.1.trans haddress) (fun hne => ?_) rfl rfl rfl
      rw [if_neg fun hnull => hne (FileAddress.isNull_iff.mp hnull)] at hnode
      rw [hanswer.2, hsize, hnode.2]

/-- **Step lemma.** -/
theorem mapping_step {l : SlotLabel} (h : MappingOk s) (hok : Unoccupied s l)
    (hs : s.step l = some s') : MappingOk s' := by
  cases l with
  | accept =>
    simp only [Slot.step] at hs
    split at hs
    · cases hs
    · cases hs
      exact h.keep rfl (fun _ => rfl) rfl rfl rfl
  | readOnce recv =>
    simp only [Slot.step, HttpConn.readOnce] at hs
    cases hs
    exact h.keep rfl (fun _ => rfl) rfl rfl rfl
  | process w => exact h.process hok hs
  | write outs =>
    simp only [Slot.step] at hs
    split at hs
    · cases hs
    · rename_i r hwrite
      obtain ⟨hstat, haddress⟩ := write_file hwrite
      cases hs
      split
      · rename_i hunmap
        rw [Bool.and_eq_true, Bool.not_eq_true'] at hunmap
        refine h.unmap (fun hn => ?_) (FileAddress.isNull_iff.mp hunmap.1)
        rw [FileAddress.isNull_iff.mpr hn] at hunmap
        cases hunmap.2
      · rename_i hunmap
        have hsame : r.conn.fileAddress = s.conn.fileAddress := by
          rcases haddress with heq | hnull
          · exact heq
          · rw [FileAddress.isNull_iff.mpr hnull, Bool.true_and, Bool.not_eq_true',
              Bool.not_eq_false, FileAddress.isNull_iff] at hunmap
            rw [hnull, hunmap]
        exact h.keep hsame (fun _ => congrArg FileStat.size hstat) rfl rfl rfl
  | cutOff =>
    simp only [Slot.step] at hs
    split at hs
    · cases hs
      exact h.keep rfl (fun _ => rfl) rfl rfl rfl
    · cases hs

/-- A worker that maps a second file, or none, or overwrites the length. -/
theorem mapping_broken {l : SlotLabel} (h : MappingOk s) (hok : ¬ Unoccupied s l)
    (hs : s.step l = some s') : ¬ MappingOk s' := by
  cases l with
  | accept | readOnce recv | write outs | cutOff => exact absurd trivial hok
  | process w =>
    simp only [Unoccupied, not_forall] at hok
    obtain ⟨node, hstat, hnode⟩ := hok
    obtain ⟨w', c, code, hread, rfl⟩ := process_cases hs
    have hfile := processRead_file hread
    have hanswer := sameFile_answer c code
    rw [Option.mem_def] at hstat
    simp only [hstat] at hfile
    obtain ⟨hsize, hopened⟩ := hfile
    intro h'
    split at hopened
    · rename_i hopen
      obtain ⟨haddress, hcode⟩ := hopened
      rw [if_pos hcode] at h'
      cases hmapping : node.mapping with
      | none =>
        -- the address is `MAP_FAILED`
        have hfailed : c.fileAddress = .mapFailed := by
          rw [haddress, FileNode.mmap, hmapping]
        obtain ⟨m, -, htarget, -⟩ := h'.address.mp (by
          dsimp only
          rw [hanswer.1, hfailed]
          nofun)
        simp only [Slot.mmap, hfailed] at htarget
        cases htarget
      | some content =>
        -- the old mapping is live when the new one is made
        have hmapped : c.fileAddress = .mapped content := by
          rw [haddress, FileNode.mmap, hmapping]
        have hne : s.conn.fileAddress ≠ .null := by
          intro hnull
          rw [if_pos (FileAddress.isNull_iff.mpr hnull), hmapping] at hnode
          exact hnode fun _ => rfl
        obtain ⟨m, hlive, -, -⟩ := h.address.mp hne
        have hempty := h'.separate ⟨s.next, c.fileStat.size⟩ s.live (by simp [Slot.mmap, hmapped])
        cases hlive.symm.trans hempty
    · rename_i hopen
      obtain ⟨haddress, hcode⟩ := hopened
      rw [if_neg hcode] at h'
      have hne : s.conn.fileAddress ≠ .null := by
        intro hnull
        rw [if_pos (FileAddress.isNull_iff.mpr hnull)] at hnode
        exact hnode fun hopened => absurd hopened hopen
      rw [if_neg fun hnull => hne (FileAddress.isNull_iff.mp hnull)] at hnode
      obtain ⟨m, hlive, -, hlength⟩ := h.address.mp hne
      obtain ⟨m', hlive', -, hlength'⟩ := h'.address.mp (by
        dsimp only
        rw [hanswer.1, haddress]
        exact hne)
      -- the mapping is the same, the length in `m_file_stat` is another
      obtain ⟨rfl, -⟩ := List.cons.inj (hlive.symm.trans hlive')
      refine hnode ⟨by simpa using hopen, ?_⟩
      dsimp only at hlength'
      rw [← hlength, hlength', hanswer.2, hsize]

-- ---------------------------------------------------------------------------
-- Runs
-- ---------------------------------------------------------------------------

/-- **An address has one mapping, with its length**, and each mapping goes before the next comes,
while no worker's `stat` finds a file behind a mapping, or one that `mmap` cannot map. The first
that does breaks it. -/
theorem mapping_ok (h : Reachable SlotInitial Slot.step Unoccupied s) :
    MappingOk s ∧ ∀ l s', s.step l = some s' → ¬ Unoccupied s l → ¬ MappingOk s' := by
  have hmapping : MappingOk s :=
    h.invariant (fun _ h => mappingOk_initial h) fun _ _ _ ht hok hs => mapping_step ht hok hs
  exact ⟨hmapping, fun l s' hs hok => mapping_broken hmapping hok hs⟩

end

def newSlot : Slot where
  conn := HttpConn.constructed
  connected := false
  target := none
  live := []
  calls := []
  next := 0

theorem newSlot_initial : SlotInitial newSlot := ⟨rfl, rfl, rfl, rfl⟩

/-- A connection with a request for `/log.html`, which has two bytes. -/
def pageVisit : List SlotLabel :=
  [.accept, .readOnce (.data (bytes "GET /1 HTTP/1.1\r\n\r\n")), .process onePage]

/-- One answer is sent, in two parts; the next ends with an error. -/
theorem mapping_ok_page : ∃ s : Slot,
    s.calls = [.mmap ⟨0, 2⟩ [], .munmap (some ⟨0, 2⟩) 2 [⟨0, 2⟩], .mmap ⟨1, 2⟩ [],
      .munmap (some ⟨1, 2⟩) 2 [⟨1, 2⟩]] ∧ MappingOk s := by
  have hrun : (runSteps (guarded (fun s l => decide (Unoccupied s l)) Slot.step) newSlot
      (pageVisit ++ [.write [.sent 40, .eagain], .write [.sent 17]] ++ pageVisit ++
        [.write [.error]])).map (fun s => s.calls) =
      some [.mmap ⟨0, 2⟩ [], .munmap (some ⟨0, 2⟩) 2 [⟨0, 2⟩], .mmap ⟨1, 2⟩ [],
        .munmap (some ⟨1, 2⟩) 2 [⟨1, 2⟩]] := by
    decide +kernel
  obtain ⟨s, hs, hcalls⟩ := Option.map_eq_some_iff.mp hrun
  have hreach := Reachable.of_guarded (fun _ _ h => of_decide_eq_true h) (.init newSlot_initial) hs
  exact ⟨s, hcalls, (mapping_ok hreach).1⟩

/-- The timer ends the first connection before its answer is sent. -/
theorem mapping_not_ok : ¬ ∀ s : Slot,
    Reachable SlotInitial Slot.step (fun _ _ => True) s → MappingOk s := by
  intro hall
  have hrun : (runSteps Slot.step newSlot
      (pageVisit ++ [.write [.eagain], .cutOff] ++ pageVisit)).map (fun s => s.calls) =
      some [.mmap ⟨0, 2⟩ [], .mmap ⟨1, 2⟩ [⟨0, 2⟩]] := by
    decide +kernel
  obtain ⟨s, hs, hcalls⟩ := Option.map_eq_some_iff.mp hrun
  have hok := hall s (Reachable.of_run (fun _ _ _ => trivial) (.init newSlot_initial) hs)
  have hempty := hok.separate ⟨1, 2⟩ [⟨0, 2⟩] (by rw [hcalls]; simp)
  cases hempty

end TinyHTTP.Http
