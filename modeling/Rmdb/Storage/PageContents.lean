import Rmdb.Lib.WriteBack
import Rmdb.Storage.FrameAccounting

/-!
# The contents of the pages

- `BufferPoolManager.view`: the pool as a write-back cache over the files, by path and place, so that a page keeps its
  name when its file is closed and opened under another descriptor;
- `Fine` and `Served`: what every operation keeps, and that it moves as such a cache does. One rule for each operation;
- `PoolRun`: the runs of clients that keep to their pins, with the contents they expect, and `PoolRun.contents`: these
  are the contents, and every `fetch_page` returns them.
-/

namespace Rmdb

open Lib

namespace DiskManager

/-- A descriptor is open on one file, which is open under no other. -/
def Paired (d : DiskManager) : Prop := ∀ fd path, d.fd2path fd = some path ↔ d.path2fd path = some fd

/-- The file of a page, and its place in it. -/
def pageKey (d : DiskManager) (pageId : PageId) : Option (String × Nat) :=
  if 0 ≤ pageId.pageNo then (d.fd2path pageId.fd).map fun path => (path, pageId.pageNo.toNat) else none

/-- The page at a place of an open file. -/
def pageAt (d : DiskManager) (k : String × Nat) : Option PageId := (d.path2fd k.1).map fun fd => ⟨fd, (k.2 : Nat)⟩

/-- The bytes of a page on disk. -/
def stored (d : DiskManager) (k : String × Nat) : Bytes := block 0 pageSize.toNat ((d.files k.1).getD []) k.2

variable {d d' : DiskManager} {pageId : PageId} {k : String × Nat} {data : Bytes}

theorem pageKey_eq_some : d.pageKey pageId = some k ↔
    0 ≤ pageId.pageNo ∧ d.fd2path pageId.fd = some k.1 ∧ pageId.pageNo.toNat = k.2 := by
  unfold pageKey
  split
  · next h => simp [h, Prod.ext_iff]
  · next h => simp [h]

theorem pageAt_iff (h : d.Paired) : d.pageAt k = some pageId ↔ d.pageKey pageId = some k := by
  rw [pageKey_eq_some, h]
  unfold pageAt
  rw [Option.map_eq_some_iff]
  constructor
  · rintro ⟨fd, hfd, rfl⟩
    exact ⟨Int.natCast_nonneg _, hfd, Int.toNat_natCast _⟩
  · rintro ⟨h0, hfd, hno⟩
    refine ⟨pageId.fd, hfd, ?_⟩
    rw [← hno, Int.toNat_of_nonneg h0]

theorem pageKey_of_lseek {path : String} {file : Bytes} (h : d.lseek pageId.fd pageId.pageNo = .ok (path, file)) :
    d.pageKey pageId = some (path, pageId.pageNo.toNat) ∧ file = (d.files path).getD [] := by
  unfold lseek at h
  split at h
  · next hno =>
    split at h
    · cases h
    · next path' hpath =>
      cases h
      exact ⟨pageKey_eq_some.2 ⟨hno.1, hpath, rfl⟩, rfl⟩
  · cases h

/-- A page that can be read is a page of an open file. -/
theorem stored_of_readPage (h : d.readPage pageId.fd pageId.pageNo = .ok data) :
    data.length = pageSize.toNat ∧ ∃ k, d.pageKey pageId = some k ∧ data = d.stored k := by
  unfold readPage at h
  obtain ⟨⟨path, file⟩, hseek, h⟩ := bind_eq_ok.1 h
  obtain ⟨hkey, rfl⟩ := pageKey_of_lseek hseek
  dsimp only at h
  split at h
  · next hlen =>
    obtain rfl := Except.ok.inj h
    exact ⟨hlen, _, hkey, readAt_eq_block hlen⟩
  · cases h

/-- A page that can be written is the only one that changes. -/
theorem stored_of_writePage (h : d.writePage pageId.fd pageId.pageNo data = .ok d')
    (hlen : data.length = pageSize.toNat) : d'.fd2path = d.fd2path ∧ d'.path2fd = d.path2fd ∧
      ∃ k, d.pageKey pageId = some k ∧ d'.stored = Function.update d.stored k data := by
  unfold writePage at h
  obtain ⟨⟨path, file⟩, hseek, h⟩ := bind_eq_ok.1 h
  obtain ⟨hkey, rfl⟩ := pageKey_of_lseek hseek
  obtain rfl := Except.ok.inj h
  refine ⟨rfl, rfl, _, hkey, ?_⟩
  funext q
  by_cases hpath : q.1 = path
  · obtain ⟨path', n⟩ := q
    obtain rfl : path' = path := hpath
    by_cases hn : n = pageId.pageNo.toNat
    · subst hn
      rw [Function.update_self]
      simp only [stored, Function.update_self, Option.getD_some]
      exact block_writeAt_self hlen
    · rw [Function.update_of_ne fun heq => hn (Prod.mk.inj heq).2]
      simp only [stored, Function.update_self, Option.getD_some]
      exact block_writeAt_of_ne hlen hn
  · rw [Function.update_of_ne fun heq => hpath (congrArg Prod.fst heq)]
    simp only [stored, Function.update_of_ne hpath]

end DiskManager

namespace BufferPoolManager

/-! ## The pool as a cache -/

/-- What is cached, and what is on disk. -/
def view (s : BufferPoolManager) : WriteBack (String × Nat) Bytes where
  cache k := ((s.diskManager.pageAt k).bind s.pageTable).map fun frame => ((s.pages frame).data, (s.pages frame).isDirty)
  store := s.diskManager.stored

@[simp] theorem store_view (s : BufferPoolManager) : s.view.store = s.diskManager.stored := by rw [view]

/-- What every operation keeps; the frame `taken` is the one that the running operation took. -/
structure Fine (taken : Option Nat) (s : BufferPoolManager) : Prop where
  frames : FramesBut taken s
  paired : s.diskManager.Paired
  sized : ∀ frame, (s.pages frame).data.length = pageSize.toNat
  opened : ∀ pageId frame, s.pageTable pageId = some frame → (s.diskManager.pageKey pageId).isSome

section views
variable {s s' : BufferPoolManager} {pageId : PageId} {frame : Nat} {k : String × Nat} {taken : Option Nat}

theorem cache_view (h : s.diskManager.Paired) (hk : s.diskManager.pageKey pageId = some k) :
    s.view.cache k = (s.pageTable pageId).map fun frame => ((s.pages frame).data, (s.pages frame).isDirty) := by
  simp only [view, (DiskManager.pageAt_iff h).2 hk, Option.bind_some]

/-- The view shows the cached bytes and dirty bits, and the files. -/
theorem view_congr (htable : s'.pageTable = s.pageTable) (hpath : s'.diskManager.path2fd = s.diskManager.path2fd)
    (hfiles : s'.diskManager.files = s.diskManager.files)
    (hpages : ∀ frame, (s'.pages frame).data = (s.pages frame).data ∧
      (s'.pages frame).isDirty = (s.pages frame).isDirty) : s'.view = s.view := by
  have hat : s'.diskManager.pageAt = s.diskManager.pageAt := by
    funext q
    simp only [DiskManager.pageAt, hpath]
  have hstored : s'.diskManager.stored = s.diskManager.stored := by
    funext q
    simp only [DiskManager.stored, hfiles]
  ext1
  · simp only [view, hat, htable, hpages]
  · rw [store_view, store_view, hstored]

/-- A frame gets other contents. -/
theorem view_setPage (h : Fine taken s) (ht : s.pageTable pageId = some frame)
    (hk : s.diskManager.pageKey pageId = some k) (page : Page) :
    (s.setPage frame page).view = s.view.put k page.data page.isDirty := by
  have hown := fun q f => (h.frames.table q f).1
  ext1
  · funext q
    by_cases hq : q = k
    · subst hq
      rw [cache_view (s := s.setPage frame page) h.paired hk]
      simp [setPage, ht, WriteBack.put]
    · simp only [WriteBack.put, Function.update_of_ne hq, view, setPage]
      cases hat : s.diskManager.pageAt q with
      | none => rfl
      | some id =>
        have hne : id ≠ pageId := by
          rintro rfl
          exact hq (Option.some.inj (((DiskManager.pageAt_iff h.paired).1 hat).symm.trans hk))
        cases hid : s.pageTable id with
        | none => simp [hid]
        | some f =>
          have hf : f ≠ frame := by
            rintro rfl
            exact hne ((hown id f hid).2.1.symm.trans (hown pageId f ht).2.1)
          simp [hid, Function.update_of_ne hf]
  · rw [store_view, WriteBack.put, store_view]
    rfl

end views

/-! ## What an operation keeps -/

/-- The operation made the moves of a cache, and left pinned pages in their frames. -/
structure Served (O : String × Nat → Prop) (s s' : BufferPoolManager) : Prop where
  moves : WriteBack.Moves O s.view s'.view
  fd2path : s'.diskManager.fd2path = s.diskManager.fd2path
  path2fd : s'.diskManager.path2fd = s.diskManager.path2fd
  pinned : ∀ pageId frame, s.pageTable pageId = some frame → 0 < (s.pages frame).pinCount →
    s'.pageTable pageId = some frame ∧ (s.pages frame).pinCount ≤ (s'.pages frame).pinCount

/-- Somebody holds a pin on what is owed a mark. -/
def Held (O : String × Nat → Prop) (s : BufferPoolManager) : Prop :=
  ∀ k, O k → ∃ pageId frame, s.diskManager.pageKey pageId = some k ∧ s.pageTable pageId = some frame ∧
    0 < (s.pages frame).pinCount

section keeping
variable {O : String × Nat → Prop} {s s' s'' : BufferPoolManager} {pageId : PageId} {frame : Nat} {k : String × Nat}
  {taken : Option Nat}

theorem pageKey_congr (h : s'.diskManager.fd2path = s.diskManager.fd2path) :
    s'.diskManager.pageKey = s.diskManager.pageKey := by
  funext id
  simp only [DiskManager.pageKey, h]

theorem Served.refl (s : BufferPoolManager) : Served O s s :=
  ⟨.refl, rfl, rfl, fun _ _ ht _ => ⟨ht, Int.le_refl _⟩⟩

theorem Served.trans (h : Served O s s') (h' : Served O s' s'') : Served O s s'' := by
  refine ⟨h.moves.trans h'.moves, h'.fd2path.trans h.fd2path, h'.path2fd.trans h.path2fd, fun id f ht hp => ?_⟩
  obtain ⟨ht', hle⟩ := h.pinned id f ht hp
  obtain ⟨ht'', hle'⟩ := h'.pinned id f ht' (by omega)
  exact ⟨ht'', hle.trans hle'⟩

theorem Served.held (h : Served O s s') (hheld : Held O s) : Held O s' := by
  intro q hq
  obtain ⟨id, f, hkey, ht, hp⟩ := hheld q hq
  obtain ⟨ht', hle⟩ := h.pinned id f ht hp
  exact ⟨id, f, by rw [pageKey_congr h.fd2path, hkey], ht', by omega⟩

theorem Served.of_same (hs : SameFrames s s') (hmoves : WriteBack.Moves O s.view s'.view)
    (hfd : s'.diskManager.fd2path = s.diskManager.fd2path) (hpath : s'.diskManager.path2fd = s.diskManager.path2fd) :
    Served O s s' :=
  ⟨hmoves, hfd, hpath, fun id f ht _ => ⟨by rw [hs.pageTable, ht], (hs.pinCount f).ge⟩⟩

theorem Fine.congr (h : Fine taken s) (hs : SameFrames s s')
    (hfd : s'.diskManager.fd2path = s.diskManager.fd2path) (hpath : s'.diskManager.path2fd = s.diskManager.path2fd)
    (hsized : ∀ frame, (s'.pages frame).data.length = pageSize.toNat) : Fine taken s' where
  frames := h.frames.congr hs
  paired := by
    unfold DiskManager.Paired
    rw [hfd, hpath]
    exact h.paired
  sized := hsized
  opened id f ht := by
    rw [pageKey_congr hfd]
    exact h.opened id f (by rwa [← hs.pageTable])

/-- A page in a frame is the page that the frame is for. -/
theorem Fine.table_id (h : Fine taken s) (ht : s.pageTable pageId = some frame) :
    frame < s.poolSize ∧ (s.pages frame).id = pageId ∧ pageId.pageNo ≠ invalidPageId :=
  (h.frames.table pageId frame).1 ht

/-- A frame with a page of an open file is in the page table. -/
theorem Fine.table_of_key (h : Fine taken s) (hlt : frame < s.poolSize)
    (hk : s.diskManager.pageKey (s.pages frame).id = some k) : s.pageTable (s.pages frame).id = some frame := by
  refine (h.frames.table _ _).2 ⟨hlt, rfl, ?_⟩
  have hno := (DiskManager.pageKey_eq_some.1 hk).1
  unfold invalidPageId
  omega

/-- A page in a frame that nobody pins is owed no mark. -/
theorem Held.not_owed (hheld : Held O s) (h : Fine taken s) (ht : s.pageTable pageId = some frame)
    (hp : (s.pages frame).pinCount = 0) (hk : s.diskManager.pageKey pageId = some k) : ¬O k := by
  intro ho
  obtain ⟨id, f, hkey, htable, hpin⟩ := hheld k ho
  obtain rfl : id = pageId := by
    have hat := (DiskManager.pageAt_iff h.paired).2 hkey
    rw [(DiskManager.pageAt_iff h.paired).2 hk] at hat
    exact (Option.some.inj hat).symm
  rw [ht] at htable
  obtain rfl := Option.some.inj htable
  omega

end keeping

/-! ## Pages go to disk -/

section writing
variable {O : String × Nat → Prop} {s : BufferPoolManager} {frame : Nat} {taken : Option Nat}

theorem flushLogFor_pages (s : BufferPoolManager) (page : Page) : (s.flushLogFor page).pages = s.pages := by
  unfold flushLogFor
  split
  · split <;> rfl
  · rfl

/-- A pool whose frame was written: the frame is clean, and the move is that of a cache. -/
structure Written (O : String × Nat → Prop) (taken : Option Nat) (frame : Nat) (s s' : BufferPoolManager) : Prop where
  fine : Fine taken s'
  served : Served O s s'
  same : SameFrames s s'
  clean : (s'.pages frame).isDirty = false

/-- The bytes of the frame are on disk, and the frame is marked clean. -/
theorem Fine.written (h : Fine taken s) {t : BufferPoolManager} {k : String × Nat}
    (htable : s.pageTable (s.pages frame).id = some frame) (hkey : s.diskManager.pageKey (s.pages frame).id = some k)
    (hst : SameFrames s t) (hpages : t.pages = s.pages) (hfd : t.diskManager.fd2path = s.diskManager.fd2path)
    (hpath : t.diskManager.path2fd = s.diskManager.path2fd)
    (hstored : t.diskManager.stored = Function.update s.diskManager.stored k (s.pages frame).data) :
    Written O taken frame s (t.setPage frame { s.pages frame with isDirty := false }) := by
  have hfine : Fine taken t := h.congr hst hfd hpath (by rw [hpages]; exact h.sized)
  have hsame : SameFrames s (t.setPage frame { s.pages frame with isDirty := false }) :=
    hst.trans (.setPage (by rw [hpages]) (by rw [hpages]))
  have htview : t.view = { s.view with store := Function.update s.view.store k (s.pages frame).data } := by
    have hat : t.diskManager.pageAt = s.diskManager.pageAt := by
      funext q
      simp only [DiskManager.pageAt, hpath]
    ext1
    · simp only [view, hst.pageTable, hpages, hat]
    · rw [store_view, store_view, hstored]
  have hview : (t.setPage frame { s.pages frame with isDirty := false }).view =
      s.view.save k (s.pages frame).data := by
    rw [view_setPage hfine (by rw [hst.pageTable, htable]) (by rw [pageKey_congr hfd, hkey]), htview]
    rfl
  have hcached : s.view.cache k = some ((s.pages frame).data, (s.pages frame).isDirty) := by
    rw [cache_view h.paired hkey, htable]
    rfl
  refine ⟨hfine.congr (.setPage (by rw [hpages]) (by rw [hpages])) rfl rfl ?_, .of_same hsame ?_ hfd hpath, hsame,
    by simp [setPage]⟩
  · intro f
    by_cases hf : f = frame
    · subst hf
      simpa [setPage] using h.sized f
    · simpa [setPage, hf, hpages] using h.sized f
  · rw [hview]
    exact .single (.save hcached)

theorem writeBack_served (h : Fine taken s) (hlt : frame < s.poolSize) :
    Act.Triple (· = s) (writeBack frame) (fun _ => Written O taken frame s) (fun _ _ => True) := by
  unfold writeBack
  apply Act.Triple.get_bind
  apply Act.Triple.modify_bind
  have hlog := SameFrames.flushLogFor s (s.pages frame)
  split
  · exact Act.Triple.throw_eq trivial
  · next d hwrite =>
    apply Act.Triple.modify_eq
    obtain ⟨hfd, hpath, k, hkey, hstored⟩ := DiskManager.stored_of_writePage hwrite (h.sized frame)
    exact h.written (h.table_of_key hlt hkey) hkey
      ⟨hlog.poolSize, hlog.pageTable, hlog.freeList, hlog.replacer, hlog.id, hlog.pinCount⟩ (flushLogFor_pages s _) hfd
      hpath hstored

theorem writeIfDirty_served (h : Fine taken s) (hlt : frame < s.poolSize) :
    Act.Triple (· = s) (writeIfDirty frame) (fun _ => Written O taken frame s) (fun _ _ => True) := by
  unfold writeIfDirty
  apply Act.Triple.get_bind
  split
  · exact writeBack_served h hlt
  · next hclean => exact Act.Triple.pure_eq ⟨h, .refl s, .rfl, by simpa using hclean⟩

end writing

/-! ## A frame changes hands -/

section placing
variable {O : String × Nat → Prop} {s t : BufferPoolManager} {pageId : PageId} {frame : Nat} {k : String × Nat}

/-- The frame holds a blank page in place of what it held. -/
structure Placed (O : String × Nat → Prop) (pageId : PageId) (k : String × Nat) (frame : Nat)
    (s t : BufferPoolManager) : Prop where
  fine : Fine (some frame) t
  table : t.pageTable pageId = some frame
  clean : (t.pages frame).isDirty = false
  view : ∃ c, WriteBack.Moves O s.view c ∧ c.cache k = none ∧ c.store = t.diskManager.stored ∧
    t.view = c.put k blankPage false
  fd2path : t.diskManager.fd2path = s.diskManager.fd2path
  path2fd : t.diskManager.path2fd = s.diskManager.path2fd
  pinned : ∀ id f, s.pageTable id = some f → 0 < (s.pages f).pinCount →
    t.pageTable id = some f ∧ (s.pages f).pinCount ≤ (t.pages f).pinCount

/-- The cache without the page of the frame that was taken. -/
theorem Fine.exists_dropped (h : Fine (some frame) s) (hheld : Held O s) (hclean : (s.pages frame).isDirty = false) :
    ∃ c, WriteBack.Moves O s.view c ∧ c.store = s.diskManager.stored ∧
      ∀ q, c.cache q = if s.diskManager.pageKey (s.pages frame).id = some q then none else s.view.cache q := by
  obtain ⟨hlt, hpin, -⟩ := h.frames.taken frame rfl
  cases hkey : s.diskManager.pageKey (s.pages frame).id with
  | none => exact ⟨s.view, .refl, store_view s, fun q => by rw [if_neg (by simp)]⟩
  | some k =>
    have htable := h.table_of_key hlt hkey
    have hcached : s.view.cache k = some ((s.pages frame).data, false) := by
      rw [cache_view h.paired hkey, htable, ← hclean]
      rfl
    refine ⟨s.view.drop k, .single (.drop hcached (hheld.not_owed h htable hpin hkey)), ?_, fun q => ?_⟩
    · rw [WriteBack.store_drop, store_view]
    · rw [WriteBack.cache_drop]
      simp only [Option.some.injEq, eq_comm]

/-- The page table after the frame changed over to a page that is not cached. -/
theorem pageTable_replacePage (hno : pageId.pageNo ≠ invalidPageId) (id : PageId) :
    (s.replacePage pageId frame).pageTable id = if id = pageId then some frame
      else if id = (s.pages frame).id then none else s.pageTable id := by
  simp only [replacePage, setPage, if_neg hno, Function.update_apply]

theorem pages_replacePage_of_ne {f : Nat} (hf : f ≠ frame) :
    (s.replacePage pageId frame).pages f = s.pages f := Function.update_of_ne hf ..

/-- A page in another frame keeps its place in the page table. -/
theorem Fine.table_replacePage (h : Fine (some frame) s) (hnone : s.pageTable pageId = none)
    (hno : pageId.pageNo ≠ invalidPageId) {id : PageId} {f : Nat} (ht : s.pageTable id = some f) (hf : f ≠ frame) :
    (s.replacePage pageId frame).pageTable id = some f := by
  have hid : id ≠ pageId := by
    rintro rfl
    rw [hnone] at ht
    cases ht
  have hold : id ≠ (s.pages frame).id := by
    intro heq
    obtain ⟨-, hown, hvalid⟩ := h.table_id ht
    have hframe := (h.frames.table id frame).2 ⟨(h.frames.taken frame rfl).1, heq.symm, hvalid⟩
    rw [ht] at hframe
    exact hf (Option.some.inj hframe)
  rw [pageTable_replacePage hno, if_neg hid, if_neg hold, ht]

/-- The frame of a clean page changes over to a page that is not cached. -/
theorem Fine.placed (h : Fine (some frame) s) (hheld : Held O s) (hclean : (s.pages frame).isDirty = false)
    (hnone : s.pageTable pageId = none) (hkey : s.diskManager.pageKey pageId = some k) :
    Placed O pageId k frame s (s.replacePage pageId frame) := by
  obtain ⟨c, hmoves, hstore, hcache⟩ := h.exists_dropped hheld hclean
  have hno : pageId.pageNo ≠ invalidPageId := by
    have := (DiskManager.pageKey_eq_some.1 hkey).1
    unfold invalidPageId
    omega
  have hframe : (s.replacePage pageId frame).pages frame = { s.pages frame with id := pageId, data := blankPage } :=
    Function.update_self ..
  have htable : (s.replacePage pageId frame).pageTable pageId = some frame := by
    rw [pageTable_replacePage hno, if_pos rfl]
  have hat : ∀ {q id}, s.diskManager.pageAt q = some id → s.diskManager.pageKey id = some q :=
    (DiskManager.pageAt_iff h.paired).1
  have hview : (s.replacePage pageId frame).view = c.put k blankPage false := by
    ext1
    · funext q
      by_cases hq : q = k
      · subst hq
        rw [cache_view (s := s.replacePage pageId frame) h.paired hkey, htable]
        simp only [Option.map_some, hframe, hclean, WriteBack.cache_put, if_pos]
      · rw [WriteBack.cache_put, if_neg hq, hcache q]
        have hdisk : (s.replacePage pageId frame).diskManager = s.diskManager := rfl
        simp only [view, hdisk]
        cases hid : s.diskManager.pageAt q with
        | none => simp
        | some id =>
          have hne : id ≠ pageId := by
            rintro rfl
            exact hq (Option.some.inj ((hat hid).symm.trans hkey))
          simp only [Option.bind_some]
          rw [pageTable_replacePage hno, if_neg hne]
          by_cases hold : id = (s.pages frame).id
          · rw [if_pos hold, if_pos (hold ▸ hat hid), Option.map_none]
          · have hold' : s.diskManager.pageKey (s.pages frame).id ≠ some q := by
              intro hkq
              exact hold (Option.some.inj (hid.symm.trans ((DiskManager.pageAt_iff h.paired).2 hkq)))
            rw [if_neg hold, if_neg hold']
            cases hf : s.pageTable id with
            | none => rfl
            | some f =>
              have hff : f ≠ frame := by
                rintro rfl
                exact hold (h.table_id hf).2.1.symm
              simp only [Option.map_some, pages_replacePage_of_ne hff]
    · rw [store_view, WriteBack.store_put, hstore]
      rfl
  have hck : c.cache k = none := by
    rw [hcache k, cache_view h.paired hkey, hnone]
    exact ite_self _
  refine ⟨⟨h.frames.replacePage hnone, h.paired, fun f => ?_, fun id f ht => ?_⟩, htable, ?_,
    ⟨c, hmoves, hck, hstore, hview⟩, rfl, rfl, fun id f ht hp => ?_⟩
  · by_cases hf : f = frame
    · rw [hf, hframe]
      exact List.length_replicate ..
    · rw [pages_replacePage_of_ne hf]
      exact h.sized f
  · rw [pageTable_replacePage hno] at ht
    change (s.diskManager.pageKey id).isSome
    split at ht
    · next hid => rw [hid, hkey, Option.isSome_some]
    · split at ht
      · cases ht
      · exact h.opened id f ht
  · rw [hframe]
    exact hclean
  · have hf : f ≠ frame := by
      rintro rfl
      have := (h.frames.taken f rfl).2.1
      omega
    exact ⟨h.table_replacePage hnone hno ht hf, by rw [pages_replacePage_of_ne hf]⟩

end placing

/-! ## Taking a page -/

section taking
variable {O : String × Nat → Prop} {s t u : BufferPoolManager} {pageId : PageId} {frame : Nat} {k : String × Nat}
  {taken : Option Nat} {n : Int}

theorem pinCount_hold (f : Nat) : (((s.pin frame).setPinCount frame n).pages f).pinCount =
    if f = frame then n else (s.pages f).pinCount := by
  by_cases hf : f = frame <;> simp [setPinCount, setPage, pin, hf]

theorem data_hold (f : Nat) : (((s.pin frame).setPinCount frame n).pages f).data = (s.pages f).data ∧
    (((s.pin frame).setPinCount frame n).pages f).isDirty = (s.pages f).isDirty := by
  by_cases hf : f = frame <;> simp [setPinCount, setPage, pin, hf]

theorem view_hold : ((s.pin frame).setPinCount frame n).view = s.view := view_congr rfl rfl rfl data_hold

/-- A frame that is not free is pinned. -/
theorem Fine.hold (h : Fine taken s) (htaken : ∀ f, taken = some f → f = frame) (hlt : frame < s.poolSize)
    (hfree : frame ∉ s.freeList) (hn : 0 < n) : Fine none ((s.pin frame).setPinCount frame n) where
  frames := h.frames.hold htaken hlt hfree hn
  paired := h.paired
  sized f := by
    rw [(data_hold f).1]
    exact h.sized f
  opened := h.opened

/-- A frame gets one pin more. -/
theorem Served.hold : Served O s ((s.pin frame).setPinCount frame ((s.pages frame).pinCount + 1)) := by
  refine ⟨by rw [view_hold], rfl, rfl, fun id f hid _ => ⟨hid, ?_⟩⟩
  rw [pinCount_hold]
  split
  · next hf =>
    subst hf
    omega
  · exact Int.le_refl _

/-- The page is in the frame, and the pool has made moves of a cache. -/
theorem Placed.trans (h : Served O s t) (h' : Placed O pageId k frame t u) : Placed O pageId k frame s u := by
  obtain ⟨c, hmoves, hnone, hstore, hview⟩ := h'.view
  refine ⟨h'.fine, h'.table, h'.clean, ⟨c, h.moves.trans hmoves, hnone, hstore, hview⟩, h'.fd2path.trans h.fd2path,
    h'.path2fd.trans h.path2fd, fun id f ht hp => ?_⟩
  obtain ⟨ht', hle⟩ := h.pinned id f ht hp
  obtain ⟨ht'', hle'⟩ := h'.pinned id f ht' (by omega)
  exact ⟨ht'', hle.trans hle'⟩

/-- `update_page`. Whether the page is one of an open file shows when it is read. -/
theorem updatePage_served (h : Fine (some frame) s) (hheld : Held O s) (hnone : s.pageTable pageId = none) :
    Act.Triple (· = s) (updatePage pageId frame) (fun _ t => t.diskManager.fd2path = s.diskManager.fd2path ∧
      ∀ k, s.diskManager.pageKey pageId = some k → Placed O pageId k frame s t) (fun _ _ => True) := by
  unfold updatePage
  apply Act.Triple.bind (writeIfDirty_served h (h.frames.taken frame rfl).1)
  intro _
  apply Act.Triple.modify
  intro t ht
  refine ⟨ht.served.fd2path, fun k hkey => .trans ht.served ?_⟩
  exact ht.fine.placed (ht.served.held hheld) ht.clean (by rw [ht.same.pageTable, hnone])
    (by rw [pageKey_congr ht.served.fd2path, hkey])

/-- The page is read into the frame. -/
theorem Placed.load (h : Placed O pageId k frame s t) (hkey : s.diskManager.pageKey pageId = some k) {data : Bytes}
    (hlen : data.length = pageSize.toNat) (hdata : data = t.diskManager.stored k) :
    Fine (some frame) (t.setPage frame { t.pages frame with data := data }) ∧
      Served O s (t.setPage frame { t.pages frame with data := data }) := by
  obtain ⟨c, hmoves, hnone, hstore, hview⟩ := h.view
  have hloaded : (t.setPage frame { t.pages frame with data := data }).view = c.put k (c.store k) false := by
    rw [view_setPage h.fine h.table (by rw [pageKey_congr h.fd2path, hkey]), h.clean, hview, hstore, ← hdata]
    simp only [WriteBack.put, Function.update_idem]
  refine ⟨h.fine.congr (.setPage rfl rfl) rfl rfl fun f => ?_, ?_, h.fd2path, h.path2fd, fun id f ht hp => ?_⟩
  · by_cases hf : f = frame
    · subst hf
      simpa [setPage] using hlen
    · simpa [setPage, hf] using h.fine.sized f
  · rw [hloaded]
    exact hmoves.tail (.load hnone)
  · obtain ⟨ht', hle⟩ := h.pinned id f ht hp
    refine ⟨ht', hle.trans_eq ?_⟩
    by_cases hf : f = frame <;> simp [setPage, hf]

/-- A frame that was taken has no pins; it gets one. -/
theorem Served.hold_taken (h : Served O s t) (hfine : Fine (some frame) t) :
    Served O s ((t.pin frame).setPinCount frame 1) := by
  refine ⟨by rw [view_hold]; exact h.moves, h.fd2path, h.path2fd, fun id f ht hp => ?_⟩
  obtain ⟨ht', hle⟩ := h.pinned id f ht hp
  refine ⟨ht', ?_⟩
  rw [pinCount_hold]
  split
  · next hf =>
    have := (hfine.frames.taken frame rfl).2.1
    subst hf
    omega
  · exact hle

/-- What `find_victim_page` leaves is as good as before. -/
theorem Victim.fine (h : Fine none s) (hv : Victim s (some frame) t) :
    Fine (some frame) t ∧ Served O s t ∧ t.pageTable = s.pageTable ∧ t.diskManager = s.diskManager := by
  obtain ⟨hframes, heq⟩ := hv
  have htable : t.pageTable = s.pageTable := by rw [heq]
  have hpages : t.pages = s.pages := by rw [heq]
  have hdisk : t.diskManager = s.diskManager := by rw [heq]
  refine ⟨⟨hframes, by rw [hdisk]; exact h.paired, by rw [hpages]; exact h.sized, ?_⟩, ⟨?_, ?_, ?_, ?_⟩, htable, hdisk⟩
  · rw [htable, hdisk]
    exact h.opened
  · rw [view_congr htable (by rw [hdisk]) (by rw [hdisk]) fun f => by rw [hpages]; exact ⟨rfl, rfl⟩]
  · rw [hdisk]
  · rw [hdisk]
  · intro id f ht _
    rw [htable, hpages]
    exact ⟨ht, Int.le_refl _⟩

end taking

/-! ## The operations -/

section operations
variable {O : String × Nat → Prop} {s : BufferPoolManager}

/-- `fetch_page` makes the moves of a cache, and the page is in the frame that it returns. -/
theorem fetchPage_served (h : Fine none s) (hheld : Held O s) (pageId : PageId) :
    Act.Triple (· = s) (fetchPage pageId) (fun r s' => (Fine none s' ∧ Served O s s') ∧
      ∀ frame, r = some frame → s'.pageTable pageId = some frame) (fun _ _ => True) := by
  unfold fetchPage
  apply Act.Triple.get_bind
  split
  · next frame ht =>
    apply Act.Triple.modify_bind
    apply Act.Triple.pure_eq
    have hnn := h.frames.pin_nonneg frame (h.table_id ht).1
    have hfine := h.hold (by simp) (h.table_id ht).1 (h.frames.not_free_of_table ht)
      (by omega : 0 < (s.pages frame).pinCount + 1)
    refine ⟨⟨hfine, .hold⟩, ?_⟩
    rintro _ ⟨rfl⟩
    exact ht
  · next hnone =>
    apply Act.Triple.bind (findVictimPage_frames h.frames).lax
    intro victim
    apply Act.Triple.of_eq
    intro t htaken
    cases victim with
    | none =>
      obtain ⟨rfl, -⟩ := htaken
      exact Act.Triple.pure_eq ⟨⟨h, .refl _⟩, by simp⟩
    | some frame =>
      obtain ⟨hfine, hserved, htable, hdisk⟩ := Victim.fine (O := O) h htaken
      apply Act.Triple.bind (updatePage_served hfine (hserved.held hheld) (by rw [htable, hnone]))
      intro _
      apply Act.Triple.of_eq
      rintro u ⟨hfd, hplaced⟩
      apply Act.Triple.get_bind
      split
      · exact Act.Triple.throw_eq trivial
      · next data hread =>
        apply Act.Triple.modify_bind
        apply Act.Triple.modify_bind
        apply Act.Triple.pure_eq
        obtain ⟨hlen, k, hkey, hdata⟩ := DiskManager.stored_of_readPage hread
        rw [pageKey_congr hfd] at hkey
        obtain ⟨hloaded, hserved'⟩ := (hplaced k hkey).load hkey hlen hdata
        obtain ⟨hlt, -, hfree⟩ := hloaded.frames.taken frame rfl
        refine ⟨⟨hloaded.hold (by simp) hlt hfree Int.one_pos, (hserved.trans hserved').hold_taken hloaded⟩, ?_⟩
        rintro _ ⟨rfl⟩
        exact (hplaced k hkey).table

/-- `new_page` puts a blank page into the cache. -/
theorem newPage_served (h : Fine none s) (hheld : Held O s) {fd : Int} {k : String × Nat}
    (hfresh : s.pageTable ⟨fd, s.diskManager.fd2pageno fd⟩ = none)
    (hkey : s.diskManager.pageKey ⟨fd, s.diskManager.fd2pageno fd⟩ = some k) :
    Act.Triple (· = s) (newPage fd) (fun r s' => (r = none ∧ s' = s) ∨
      ∃ frame t, r = some (frame, ⟨fd, s.diskManager.fd2pageno fd⟩) ∧
        Placed O ⟨fd, s.diskManager.fd2pageno fd⟩ k frame s t ∧ s' = (t.pin frame).setPinCount frame 1)
      (fun _ _ => True) := by
  unfold newPage
  apply Act.Triple.bind (findVictimPage_frames h.frames).lax
  intro victim
  apply Act.Triple.of_eq
  intro t htaken
  cases victim with
  | none =>
    obtain ⟨rfl, -⟩ := htaken
    exact Act.Triple.pure_eq (.inl ⟨rfl, rfl⟩)
  | some frame =>
    obtain ⟨hfine, hserved, htable, hdisk⟩ := Victim.fine (O := O) h htaken
    apply Act.Triple.get_bind
    rw [hdisk]
    unfold DiskManager.allocatePage
    apply Act.Triple.modify_bind
    set u : BufferPoolManager := { t with diskManager := { s.diskManager with
      fd2pageno := Function.update s.diskManager.fd2pageno fd (s.diskManager.fd2pageno fd + 1) } } with hu
    have hsame : SameFrames t u := ⟨rfl, rfl, rfl, rfl, fun _ => rfl, fun _ => rfl⟩
    have hfd : u.diskManager.fd2path = t.diskManager.fd2path := by rw [hdisk]
    have hpath : u.diskManager.path2fd = t.diskManager.path2fd := by rw [hdisk]
    have hview : u.view = t.view := view_congr rfl hpath (by rw [hdisk]) fun _ => ⟨rfl, rfl⟩
    have hserved' : Served O s u := hserved.trans (.of_same hsame (by rw [hview]) hfd hpath)
    apply Act.Triple.bind (updatePage_served (hfine.congr hsame hfd hpath hfine.sized) (hserved'.held hheld)
      (by rw [hsame.pageTable, htable, hfresh]))
    intro _
    apply Act.Triple.of_eq
    rintro v ⟨-, hplaced⟩
    apply Act.Triple.modify_bind
    apply Act.Triple.pure_eq
    refine .inr ⟨frame, v, rfl, .trans hserved' (hplaced k ?_), rfl⟩
    rw [pageKey_congr hserved'.fd2path, hkey]

/-- `flush_page`. -/
theorem flushPage_served (h : Fine none s) (pageId : PageId) :
    Act.Triple (· = s) (flushPage pageId) (fun _ s' => Fine none s' ∧ Served O s s') (fun _ _ => True) := by
  unfold flushPage
  apply Act.Triple.get_bind
  split
  · exact Act.Triple.pure_eq ⟨h, .refl s⟩
  · next frame ht =>
    apply Act.Triple.bind (writeBack_served h (h.table_id ht).1)
    intro _
    exact Act.Triple.pure fun t ht => ⟨ht.fine, ht.served⟩

/-- `flush_all_pages`. -/
theorem flushAllPages_served (h : Fine none s) (fd : Int) :
    Act.Triple (· = s) (flushAllPages fd) (fun _ s' => Fine none s' ∧ Served O s s') (fun _ _ => True) := by
  unfold flushAllPages
  apply Act.Triple.get_bind
  refine Act.Triple.conseq (Act.Triple.forM (I := fun t => (Fine none t ∧ Served O s t) ∧ t.poolSize = s.poolSize)
    (E := fun _ _ => True) (List.range s.poolSize) ?_)
    (by rintro _ rfl; exact ⟨⟨h, .refl _⟩, rfl⟩) (fun _ _ => And.left) fun _ _ => id
  intro frame hframe
  apply Act.Triple.of_eq
  rintro t ⟨⟨hfine, hserved⟩, hsize⟩
  apply Act.Triple.get_bind
  split
  · refine (writeIfDirty_served hfine (by rw [hsize]; exact List.mem_range.1 hframe)).conseq (fun _ => id)
      (fun _ u hu => ⟨⟨hu.fine, hserved.trans hu.served⟩, hu.same.poolSize.trans hsize⟩) fun _ _ => id
  · exact Act.Triple.pure_eq ⟨⟨hfine, hserved⟩, hsize⟩

end operations

/-! ## Giving a page up -/

section releasing
variable {O : String × Nat → Prop} {s t : BufferPoolManager} {pageId : PageId} {frame : Nat} {k : String × Nat}

/-- A clean page that nobody pins leaves its frame. -/
theorem Fine.freed (h : Fine none s) (hheld : Held O s) (ht : s.pageTable pageId = some frame)
    (hp : (s.pages frame).pinCount = 0) (hclean : (s.pages frame).isDirty = false) :
    Fine none (s.freePage pageId frame 0) ∧ Served O s (s.freePage pageId frame 0) := by
  obtain ⟨k, hkey⟩ := Option.isSome_iff_exists.1 (h.opened pageId frame ht)
  have hpages : ∀ f, f ≠ frame → (s.freePage pageId frame 0).pages f = s.pages f := fun f hf =>
    Function.update_of_ne hf ..
  have htable : ∀ id, (s.freePage pageId frame 0).pageTable id = if id = pageId then none else s.pageTable id :=
    fun id => Function.update_apply ..
  have hother : ∀ {id f}, s.pageTable id = some f → id ≠ pageId → f ≠ frame := by
    rintro id f hid hne rfl
    exact hne ((h.table_id hid).2.1.symm.trans (h.table_id ht).2.1)
  have hview : (s.freePage pageId frame 0).view = s.view.drop k := by
    ext1
    · funext q
      rw [WriteBack.cache_drop]
      split
      · next hq =>
        subst hq
        rw [cache_view (s := s.freePage pageId frame 0) h.paired hkey, htable, if_pos rfl, Option.map_none]
      · next hq =>
        have hdisk : (s.freePage pageId frame 0).diskManager = s.diskManager := rfl
        simp only [view, hdisk]
        cases hid : s.diskManager.pageAt q with
        | none => rfl
        | some id =>
          have hne : id ≠ pageId := by
            rintro rfl
            exact hq (Option.some.inj (((DiskManager.pageAt_iff h.paired).1 hid).symm.trans hkey))
          simp only [Option.bind_some]
          rw [htable, if_neg hne]
          cases hf : s.pageTable id with
          | none => rfl
          | some f => simp only [Option.map_some, hpages f (hother hf hne)]
    · rw [store_view, WriteBack.store_drop, store_view]
      rfl
  have hcached : s.view.cache k = some ((s.pages frame).data, false) := by
    rw [cache_view h.paired hkey, ht, ← hclean]
    rfl
  refine ⟨⟨h.frames.freePage ht, h.paired, fun f => ?_, fun id f hid => ?_⟩, ⟨?_, rfl, rfl, fun id f hid hpin => ?_⟩⟩
  · by_cases hf : f = frame
    · subst hf
      simp [freePage, setPage, blankPage]
    · rw [hpages f hf]
      exact h.sized f
  · rw [htable] at hid
    split at hid
    · cases hid
    · exact h.opened id f hid
  · rw [hview]
    exact .single (.drop hcached (hheld.not_owed h ht hp hkey))
  · have hne : id ≠ pageId := by
      rintro rfl
      rw [ht] at hid
      obtain rfl := Option.some.inj hid
      omega
    rw [htable, if_neg hne, hpages f (hother hid hne)]
    exact ⟨hid, Int.le_refl _⟩

/-- `delete_page`. -/
theorem deletePage_served (h : Fine none s) (hheld : Held O s) (pageId : PageId) :
    Act.Triple (· = s) (deletePage pageId) (fun _ s' => Fine none s' ∧ Served O s s') (fun _ _ => True) := by
  unfold deletePage
  apply Act.Triple.get_bind
  split
  · exact Act.Triple.pure_eq ⟨h, .refl s⟩
  · next frame ht =>
    split
    · exact Act.Triple.pure_eq ⟨h, .refl s⟩
    · next hp =>
      have hzero : (s.pages frame).pinCount = 0 := by
        have := h.frames.pin_nonneg frame (h.table_id ht).1
        omega
      apply Act.Triple.bind (writeIfDirty_served h (h.table_id ht).1)
      intro _
      apply Act.Triple.of_eq
      intro t hw
      apply Act.Triple.modify_bind
      apply Act.Triple.pure_eq
      rw [hw.same.pinCount, hzero]
      obtain ⟨hfine, hserved⟩ := hw.fine.freed (hw.served.held hheld) (by rw [hw.same.pageTable, ht])
        (by rw [hw.same.pinCount, hzero]) hw.clean
      exact ⟨hfine, hw.served.trans hserved⟩

/-- Nobody pins a page of the file. -/
def Unpinned (s : BufferPoolManager) (fd : Int) : Prop := ∀ frame, s.holds fd frame → (s.pages frame).pinCount = 0

theorem holds_iff {fd : Int} :
    s.holds fd frame ↔ (s.pages frame).id.fd = fd ∧ (s.pages frame).id.pageNo ≠ invalidPageId := by
  rw [holds, decide_eq_true_eq]

theorem SameFrames.holds (h : SameFrames s t) (fd : Int) (frame : Nat) : t.holds fd frame = s.holds fd frame := by
  simp only [BufferPoolManager.holds, h.id]

/-- The frame of a page that was given up holds no page; the other frames hold theirs. -/
theorem holds_freePage {fd : Int} {n : Int} (f : Nat) : (s.freePage pageId frame n).holds fd f ↔
    f ≠ frame ∧ s.holds fd f := by
  rw [holds_iff, holds_iff]
  by_cases hf : f = frame
  · subst hf
    simp [freePage, setPage]
  · simp [freePage, setPage, hf]

/-- `delete_all_pages` leaves no page of the file in the pool. -/
theorem deleteAllPages_served (h : Fine none s) (hheld : Held O s) {fd : Int} (hfree : s.Unpinned fd) :
    Act.Triple (· = s) (deleteAllPages fd) (fun _ s' => (Fine none s' ∧ Served O s s') ∧
      ∀ id frame, s'.pageTable id = some frame → id.fd ≠ fd) (fun _ _ => True) := by
  unfold deleteAllPages
  apply Act.Triple.get_bind
  refine Act.Triple.conseq (Act.Triple.forM_done (I := fun done t => (Fine none t ∧ Served O s t) ∧
    t.poolSize = s.poolSize ∧ t.Unpinned fd ∧ ∀ f ∈ done, ¬t.holds fd f) (E := fun _ _ => True)
    (List.range s.poolSize) [] ?_) (by rintro _ rfl; exact ⟨⟨h, .refl _⟩, rfl, hfree, by simp⟩)
    (fun _ t ht => ⟨ht.1, fun id f hid hfd => ?_⟩) fun _ _ => id
  · intro done frame hframe
    apply Act.Triple.of_eq
    rintro t ⟨⟨hfine, hserved⟩, hsize, hunpinned, hdone⟩
    apply Act.Triple.get_bind
    split
    · next hholds =>
      apply Act.Triple.bind (writeIfDirty_served hfine (by rw [hsize]; exact List.mem_range.1 hframe))
      intro _
      apply Act.Triple.modify
      intro u hw
      have hserved' := hserved.trans hw.served
      have hzero : (u.pages frame).pinCount = 0 := by rw [hw.same.pinCount, hunpinned frame hholds]
      have htable : u.pageTable (u.pages frame).id = some frame := by
        refine (hw.fine.frames.table _ _).2 ⟨?_, rfl, ?_⟩
        · rw [hw.same.poolSize, hsize]
          exact List.mem_range.1 hframe
        · rw [hw.same.id]
          exact (holds_iff.1 hholds).2
      obtain ⟨hfine', hserved''⟩ := hw.fine.freed (hserved'.held hheld) htable hzero hw.clean
      refine ⟨⟨hfine', hserved'.trans hserved''⟩, hw.same.poolSize.trans hsize, fun f hf => ?_, fun f hf => ?_⟩
      · obtain ⟨hne, hf⟩ := (holds_freePage f).1 hf
        rw [hw.same.holds] at hf
        have hpage : (u.freePage (u.pages frame).id frame 0).pages f = u.pages f := Function.update_of_ne hne ..
        rw [hpage, hw.same.pinCount, hunpinned f hf]
      · rw [holds_freePage, hw.same.holds]
        rintro ⟨hne, hf'⟩
        exact hdone f ((List.mem_append.1 hf).resolve_right (by simpa using hne)) hf'
    · next hholds =>
      refine Act.Triple.pure_eq ⟨⟨hfine, hserved⟩, hsize, hunpinned, fun f hf => ?_⟩
      rcases List.mem_append.1 hf with hf | hf
      · exact hdone f hf
      · obtain rfl := List.mem_singleton.1 hf
        exact hholds
  · obtain ⟨⟨hfine, -⟩, hsize, -, hdone⟩ := ht
    obtain ⟨hlt, hown, hno⟩ := hfine.table_id hid
    rw [hsize] at hlt
    refine hdone f (by simpa using hlt) (holds_iff.2 ?_)
    rw [hown]
    exact ⟨hfd, hno⟩

/-- The page has one pin less, and is marked dirty when the caller says so. -/
structure Released (pageId : PageId) (isDirty : Bool) (frame : Nat) (s s' : BufferPoolManager) : Prop where
  fine : Fine none s'
  pageTable : s'.pageTable = s.pageTable
  diskManager : s'.diskManager = s.diskManager
  view : ∀ k, s.diskManager.pageKey pageId = some k →
    s'.view = if isDirty then s.view.put k (s.pages frame).data true else s.view
  pinCount : ∀ f, (s'.pages f).pinCount = if f = frame then (s.pages frame).pinCount - 1 else (s.pages f).pinCount

theorem Fine.released (h : Fine none s) (ht : s.pageTable pageId = some frame) (hp : 0 < (s.pages frame).pinCount)
    {t u : BufferPoolManager} (ht' : t = s.setPinCount frame ((s.pages frame).pinCount - 1))
    (hu : u = if (t.pages frame).pinCount = 0 then t.unpin frame else t) : Released pageId false frame s u := by
  have hrest : u.pageTable = s.pageTable ∧ u.diskManager = s.diskManager ∧ u.pages = t.pages := by
    rw [hu, ht']
    split <;> exact ⟨rfl, rfl, rfl⟩
  obtain ⟨htable, hdisk, hpages⟩ := hrest
  have hdata : ∀ f, (u.pages f).data = (s.pages f).data ∧ (u.pages f).isDirty = (s.pages f).isDirty := by
    intro f
    rw [hpages, ht']
    by_cases hf : f = frame <;> simp [setPinCount, setPage, hf]
  refine ⟨⟨h.frames.release ht hp ht' hu, ?_, fun f => ?_, ?_⟩, htable, hdisk, fun _ _ => ?_, fun f => ?_⟩
  · rw [hdisk]
    exact h.paired
  · rw [(hdata f).1]
    exact h.sized f
  · rw [htable, hdisk]
    exact h.opened
  · exact view_congr htable (by rw [hdisk]) (by rw [hdisk]) hdata
  · rw [hpages, ht']
    by_cases hf : f = frame <;> simp [setPinCount, setPage, hf]

/-- The dirty bit is set after the pin is given up. -/
theorem Released.marked (h : Released pageId false frame s t) (ht : s.pageTable pageId = some frame)
    (hdata : (t.pages frame).data = (s.pages frame).data) : Released pageId true frame s (t.markDirty frame) := by
  have hsame : SameFrames t (t.markDirty frame) := .setPage rfl rfl
  refine ⟨h.fine.congr hsame rfl rfl fun f => ?_, h.pageTable, h.diskManager, fun k hkey => ?_, fun f => ?_⟩
  · by_cases hf : f = frame
    · subst hf
      simpa [markDirty, setPage] using h.fine.sized f
    · simpa [markDirty, setPage, hf] using h.fine.sized f
  · rw [markDirty, view_setPage h.fine (by rw [h.pageTable, ht]) (by rw [h.diskManager, hkey]), h.view k hkey, hdata]
    rfl
  · rw [hsame.pinCount, h.pinCount]

/-- `unpin_page`. -/
theorem unpinPage_served (h : Fine none s) (pageId : PageId) (isDirty : Bool) :
    Act.Triple (· = s) (unpinPage pageId isDirty) (fun _ s' =>
      (s' = s ∧ ∀ frame, s.pageTable pageId = some frame → (s.pages frame).pinCount ≤ 0) ∨
      ∃ frame, s.pageTable pageId = some frame ∧ Released pageId isDirty frame s s') (fun _ _ => True) := by
  unfold unpinPage
  apply Act.Triple.get_bind
  split
  · next hnone => exact Act.Triple.pure_eq (.inl ⟨rfl, by simp [hnone]⟩)
  · next frame ht =>
    split
    · next hp =>
      refine Act.Triple.pure_eq (.inl ⟨rfl, ?_⟩)
      intro f hf
      rw [ht] at hf
      obtain rfl := Option.some.inj hf
      exact hp
    · next hp =>
      apply Act.Triple.modify_bind
      apply Act.Triple.modify_bind
      apply Act.Triple.modify_bind
      apply Act.Triple.pure_eq
      refine .inr ⟨frame, ht, ?_⟩
      have hreleased := h.released ht (by omega) rfl rfl
      cases isDirty with
      | false => exact hreleased
      | true =>
        refine hreleased.marked ht ?_
        split <;> simp [setPinCount, setPage, unpin]

end releasing

end BufferPoolManager

end Rmdb
