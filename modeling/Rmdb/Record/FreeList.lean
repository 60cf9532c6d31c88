import Rmdb.Lib.Chain
import Rmdb.Record.FileHandle

/-!
# The free-page chain of a heap file

- `RmFile.rebuildFreeList`: the loop of `RecoveryManager::undo` that counts the records of each page and relinks the
  pages with a free slot;
- `HeapInv f ps`: every page counts its records and the chain visits `ps`, whose pages are not full;
- each operation keeps it, except a positional insert that fills a page while it is on the chain;
- `safe_iff_not_refills`: over a run this exception is exactly what breaks `insert_record`.
-/

namespace Rmdb

open Lib

namespace RmFile

/-- The body of the loop over the pages. -/
def relinkPage (f : RmFile) (pageNo : Int) : Except RMDBError RmFile := do
  let page ← f.bpmFetch pageNo
  let numRecords := page.bitmap.count f.fileHdr.numRecordsPerPage.toNat
  if numRecords < f.fileHdr.numRecordsPerPage then
    return (f.setPage pageNo { page with
      numRecords := numRecords
      nextFreePageNo := f.fileHdr.firstFreePageNo }).setFirstFree pageNo
  else
    return f.setPage pageNo { page with numRecords := numRecords, nextFreePageNo := rmNoPage }

/-- The loop, with `k` pages left from `pageNo` on. -/
def relinkFrom : Nat → Int → RmFile → Except RMDBError RmFile
  | 0, _, f => .ok f
  | k + 1, pageNo, f => do relinkFrom k (pageNo + 1) (← f.relinkPage pageNo)

/-- "Reconstruct the free page list", at the end of `undo`. -/
def rebuildFreeList (f : RmFile) : Except RMDBError RmFile := do
  let f ← relinkFrom (f.fileHdr.numPages - 1).toNat rmFirstRecordPage (f.setFirstFree rmNoPage)
  return { f with fd2pageno := f.fileHdr.numPages }

/-! ## The invariant -/

def HasFreeSlot (f : RmFile) (pageNo : Int) : Prop :=
  1 ≤ pageNo ∧ pageNo < f.fileHdr.numPages ∧ ∃ page slotNo, f.pages pageNo = some page ∧
    0 ≤ slotNo ∧ slotNo < f.fileHdr.numRecordsPerPage ∧ page.bitmap.isSet slotNo = false

def nextFree (f : RmFile) (pageNo : Int) : Option Int := (f.pages pageNo).map (·.nextFreePageNo)

/-- The chain from `first_free_page_no` visits `ps`. -/
def FreeList (f : RmFile) (ps : List Int) : Prop := Chain f.nextFree rmNoPage f.fileHdr.firstFreePageNo ps

/-- The chain is acyclic and has only pages with a free slot. -/
def FreeListOk (f : RmFile) : Prop := ∃ ps, f.FreeList ps ∧ ps.Nodup ∧ ∀ p ∈ ps, f.HasFreeSlot p

/-- `num_records` is the number of set bits. -/
def Counts (f : RmFile) (page : RmPage) : Prop :=
  page.numRecords = page.bitmap.count f.fileHdr.numRecordsPerPage.toNat

structure HeapInv (f : RmFile) (ps : List Int) : Prop extends Ready f where
  counts : ∀ p page, 1 ≤ p → p < f.fileHdr.numPages → f.pages p = some page → f.Counts page
  chain : f.FreeList ps
  range : ∀ p ∈ ps, 1 ≤ p ∧ p < f.fileHdr.numPages
  notFull : ∀ p ∈ ps, ∀ page, f.pages p = some page → page.numRecords < f.fileHdr.numRecordsPerPage

variable {f f' : RmFile} {ps : List Int} {p : Int} {page : RmPage}

section page
variable (hn : 0 < f.fileHdr.numRecordsPerPage) (hc : f.Counts page)
include hn hc

theorem Counts.lt_iff : page.numRecords < f.fileHdr.numRecordsPerPage ↔
    ∃ slotNo, 0 ≤ slotNo ∧ slotNo < f.fileHdr.numRecordsPerPage ∧ page.bitmap.isSet slotNo = false := by
  have hle := page.bitmap.count_le f.fileHdr.numRecordsPerPage.toNat
  have hiff := page.bitmap.count_eq_iff f.fileHdr.numRecordsPerPage.toNat
  rw [Counts] at hc
  constructor
  · intro hlt
    by_contra hnot
    have hall : ∀ i : Int, 0 ≤ i → i < f.fileHdr.numRecordsPerPage.toNat → page.bitmap.isSet i = true := by
      intro i hi hi'
      by_contra hset
      exact hnot ⟨i, hi, by omega, by simpa using hset⟩
    have := hiff.2 hall
    omega
  · rintro ⟨slotNo, h0, hlt, hclear⟩
    have hne : page.numRecords ≠ f.fileHdr.numRecordsPerPage := by
      intro heq
      have hset := hiff.1 (by omega) slotNo h0 (by omega)
      simp [hclear] at hset
    omega

theorem Counts.le : page.numRecords ≤ f.fileHdr.numRecordsPerPage := by
  have hle := page.bitmap.count_le f.fileHdr.numRecordsPerPage.toNat
  rw [Counts] at hc
  omega

theorem Counts.pos {slotNo : Int} (h : 0 ≤ slotNo) (hlt : slotNo < f.fileHdr.numRecordsPerPage)
    (hset : page.bitmap.isSet slotNo = true) : 0 < page.numRecords := by
  have h1 := page.bitmap.count_reset h (show slotNo < f.fileHdr.numRecordsPerPage.toNat by omega) hset
  have h2 := (page.bitmap.reset slotNo).count_nonneg f.fileHdr.numRecordsPerPage.toNat
  rw [Counts] at hc
  omega

theorem Counts.fillSlot {slotNo : Int} (h : 0 ≤ slotNo) (hlt : slotNo < f.fileHdr.numRecordsPerPage)
    (hclear : page.bitmap.isSet slotNo = false) (buf : Bytes) (rs : Int) : f.Counts (page.fillSlot rs slotNo buf) := by
  have h1 := page.bitmap.count_set h (show slotNo < f.fileHdr.numRecordsPerPage.toNat by omega) hclear
  rw [Counts] at hc ⊢
  simp [RmPage.fillSlot, h1, hc]

theorem Counts.clearSlot {slotNo : Int} (h : 0 ≤ slotNo) (hlt : slotNo < f.fileHdr.numRecordsPerPage)
    (hset : page.bitmap.isSet slotNo = true) : f.Counts (page.clearSlot slotNo) := by
  have h1 := page.bitmap.count_reset h (show slotNo < f.fileHdr.numRecordsPerPage.toNat by omega) hset
  rw [Counts] at hc ⊢
  simp [RmPage.clearSlot, h1, hc]

end page

theorem nextFree_setPage_of_ne {q : Int} (h : q ≠ p) : (f.setPage p page).nextFree q = f.nextFree q := by
  simp [nextFree, Function.update_of_ne h]

/-- A page that keeps its successor keeps the chain. -/
theorem FreeList.setPage (h : f.FreeList ps) (hp : p ∈ ps → f.nextFree p = some page.nextFreePageNo) :
    (f.setPage p page).FreeList ps := by
  refine Chain.congr h fun q hq => ?_
  by_cases hqp : q = p
  · subst hqp
    simpa [nextFree] using (hp hq).symm
  · exact nextFree_setPage_of_ne hqp

namespace HeapInv

theorem nodup (h : f.HeapInv ps) : ps.Nodup := Chain.nodup h.chain

theorem hasFreeSlot_iff (h : f.HeapInv ps) (h1 : 1 ≤ p) (hlt : p < f.fileHdr.numPages) (hp : f.pages p = some page) :
    f.HasFreeSlot p ↔ page.numRecords < f.fileHdr.numRecordsPerPage := by
  rw [Counts.lt_iff h.perPage (h.counts p page h1 hlt hp)]
  constructor
  · rintro ⟨_, _, page', slotNo, hp', hs⟩
    cases hp.symm.trans hp'
    exact ⟨slotNo, hs⟩
  · rintro ⟨slotNo, hs⟩
    exact ⟨h1, hlt, page, slotNo, hp, hs⟩

theorem freeListOk (h : f.HeapInv ps) : f.FreeListOk := by
  refine ⟨ps, h.chain, h.nodup, fun p hp => ?_⟩
  obtain ⟨h1, hlt⟩ := h.range p hp
  obtain ⟨page, hpage⟩ := h.page p h1 hlt
  exact (h.hasFreeSlot_iff h1 hlt hpage).2 (h.notFull p hp page hpage)

/-- Writing a page of the file that keeps its successor, and stays not full if it is on the chain. -/
theorem setPage (h : f.HeapInv ps) (h1 : 1 ≤ p) (hlt : p < f.fileHdr.numPages) (hc : f.Counts page)
    (hnext : p ∈ ps → f.nextFree p = some page.nextFreePageNo)
    (hfree : p ∈ ps → page.numRecords < f.fileHdr.numRecordsPerPage) : (f.setPage p page).HeapInv ps where
  toReady := ready_setPage h.toReady p page
  range := h.range
  chain := h.chain.setPage hnext
  counts q pg hq hq' hpg := by
    by_cases hqp : q = p
    · subst hqp
      simp only [setPage_pages, Function.update_self, Option.some.injEq] at hpg
      exact hpg ▸ hc
    · simp only [setPage_pages, Function.update_of_ne hqp] at hpg
      exact h.counts q pg hq hq' hpg
  notFull q hq pg hpg := by
    by_cases hqp : q = p
    · subst hqp
      simp only [setPage_pages, Function.update_self, Option.some.injEq] at hpg
      exact hpg ▸ hfree hq
    · simp only [setPage_pages, Function.update_of_ne hqp] at hpg
      exact h.notFull q hq pg hpg

/-- A page whose successor is the first of the chain can be put at its head. -/
theorem push (h : f.HeapInv ps) (h1 : 1 ≤ p) (hlt : p < f.fileHdr.numPages) (hpage : f.pages p = some page)
    (hnext : page.nextFreePageNo = f.fileHdr.firstFreePageNo) (hfree : page.numRecords < f.fileHdr.numRecordsPerPage) :
    (f.setFirstFree p).HeapInv (p :: ps) where
  perPage := h.perPage
  numPages := h.numPages
  page := h.page
  alloc := h.alloc
  counts := h.counts
  chain := by
    have hne : p ≠ rmNoPage := by simp only [rmNoPage]; omega
    have hsucc : f.nextFree p = some f.fileHdr.firstFreePageNo := by simp [nextFree, hpage, hnext]
    exact Chain.cons hne hsucc h.chain
  range := by
    simp only [List.mem_cons, forall_eq_or_imp]
    exact ⟨⟨h1, hlt⟩, h.range⟩
  notFull := by
    simp only [List.mem_cons, forall_eq_or_imp]
    refine ⟨fun pg hpg => ?_, h.notFull⟩
    cases hpage.symm.trans hpg
    exact hfree

/-- The head of the chain can be taken off it. -/
theorem pop (h : f.HeapInv (p :: ps)) (hpage : f.pages p = some page) :
    (f.setFirstFree page.nextFreePageNo).HeapInv ps where
  perPage := h.perPage
  numPages := h.numPages
  page := h.page
  alloc := h.alloc
  counts := h.counts
  chain := by
    obtain ⟨heq, -, c, hnext, hrest⟩ := Chain.of_cons h.chain
    simp only [heq, nextFree, hpage, Option.map_some, Option.some.injEq] at hnext
    exact hnext ▸ hrest
  range q hq := h.range q (by simp [hq])
  notFull q hq := h.notFull q (by simp [hq])

/-! ## The operations -/

variable {rid : Rid} {buf : Bytes} {ctx ctx' : Option Context}

/-- `create_new_page_handle`: the new page is not put on the chain. -/
theorem grow (h : f.HeapInv ps) (hc : f.Counts page) : (f.grow.setPage f.fd2pageno page).HeapInv ps where
  toReady := ready_grow h.toReady page
  counts p pg h1 hlt hp := by
    have halloc := h.alloc
    by_cases hpe : p = f.fd2pageno
    · subst hpe
      simp only [setPage_pages, Function.update_self, Option.some.injEq] at hp
      exact hp ▸ hc
    · simp only [setPage_fileHdr, RmFile.grow] at hlt
      simp only [setPage_pages, Function.update_of_ne hpe] at hp
      exact h.counts p pg h1 (by omega) hp
  chain := by
    refine FreeList.setPage (f := f.grow) h.chain fun hp => ?_
    have := (h.range _ hp).2
    have := h.alloc
    omega
  range p hp := by
    have := h.range p hp
    simp only [setPage_fileHdr, RmFile.grow]
    omega
  notFull p hp pg hpg := by
    have hr := h.range p hp
    have halloc := h.alloc
    rw [setPage_pages, Function.update_of_ne (by omega)] at hpg
    exact h.notFull p hp pg hpg

theorem fetch (h : f.HeapInv ps) (h1 : 1 ≤ p) (hlt : p < f.fileHdr.numPages) :
    ∃ page, f.fetchPageHandle p = .ok page ∧ f.Counts page := by
  obtain ⟨page, hp⟩ := h.page p h1 hlt
  exact ⟨page, fetchPageHandle_eq_ok.2 ⟨by omega, hlt, hp⟩, h.counts p page h1 hlt hp⟩

/-- What `insert_record(buf)` does: it succeeds, in an empty slot of the page range. -/
structure Inserted (f : RmFile) (buf : Bytes) (ctx : Option Context) (rid : Rid) (f' : RmFile) : Prop where
  page : 1 ≤ rid.pageNo ∧ rid.pageNo ≤ f.fileHdr.numPages
  slot : 0 ≤ rid.slotNo ∧ rid.slotNo < f.fileHdr.numRecordsPerPage
  empty : f.recordAt rid = none
  eq : f.insertRecord buf ctx =
    .ok (rid, f', appendLog ctx (.insert (memcpy buf f.fileHdr.recordSize) rid f.tabName))
  wrote : ∃ lsn, f.Wrote f' rid lsn (some (memcpy buf f.fileHdr.recordSize)) ∧ ∀ c ∈ ctx, lsn = c.logMgr.globalLsn

theorem firstFree_nil (h : f.HeapInv []) : f.fileHdr.firstFreePageNo = rmNoPage := by
  have hc : Chain f.nextFree rmNoPage f.fileHdr.firstFreePageNo [] := h.chain
  generalize f.fileHdr.firstFreePageNo = first at hc
  cases hc
  rfl

theorem stampLsn_of_mem (old : Int) : ∀ c ∈ ctx, stampLsn ctx old = c.logMgr.globalLsn := by
  rintro c hc
  cases Option.mem_def.1 hc
  rfl

/-- With an empty chain the record goes to a new page. -/
theorem insertRecord_nil (h : f.HeapInv []) (buf : Bytes) (ctx : Option Context) :
    ∃ rid f', Inserted f buf ctx rid f' ∧ f'.HeapInv [] := by
  have hff := h.firstFree_nil
  have hn := h.perPage
  have hnp := h.numPages
  have halloc := h.alloc
  let fresh := RmPage.fresh f.fileHdr.recordSize
  have hclear : ∀ i, fresh.bitmap.isSet i = false := fun i => by simp [fresh, RmPage.fresh, RmPage.zero]
  have hcreate : f.createPageHandle = .ok (f.fd2pageno, fresh, f.grow) := by
    simp [createPageHandle, hff, createNewPageHandle_eq, fresh]
  have heq := insertRecord_eq buf ctx hcreate
  have hcounts : f.Counts fresh := by simp [Counts, fresh, RmPage.fresh, RmPage.zero]
  have hself : f.grow.setFirstFree rmNoPage = f.grow := by rw [← hff]; rfl
  obtain ⟨h0, hlt, -⟩ | ⟨_, hall⟩ := fresh.bitmap.firstBit_false hn.le
  · simp only [grow_perPage, grow_recordSize, grow_tabName,
      show fresh.nextFreePageNo = rmNoPage from rfl, hself, ite_self] at heq
    refine ⟨_, _, ⟨⟨by simp only; omega, halloc.le⟩, ⟨h0, hlt⟩, ?_, heq, stampLsn ctx fresh.pageLsn, ?_,
      stampLsn_of_mem _⟩, h.grow ?_⟩
    · simp [recordAt, halloc]
    · refine wrote_of_grow h.toReady _ fun s => ?_
      rw [RmPage.record_stamp, RmPage.record_fillSlot]
      simp [fresh]
    · exact hcounts.fillSlot hn h0 hlt (hclear _) buf f.fileHdr.recordSize
  · have := hall 0 le_rfl hn
    simp [hclear] at this

/-- With a chain it goes to its first page, which leaves the chain when it is full. -/
theorem insertRecord_cons (h : f.HeapInv (p :: ps)) (buf : Bytes) (ctx : Option Context) :
    ∃ rid f' ps', Inserted f buf ctx rid f' ∧ f'.HeapInv ps' := by
  obtain ⟨hff, hne, -⟩ := Chain.of_cons h.chain
  have hn := h.perPage
  obtain ⟨h1, hlt⟩ := h.range p (by simp)
  obtain ⟨page, hfetch, hcounts⟩ := h.fetch h1 hlt
  obtain ⟨-, -, hp⟩ := fetchPageHandle_eq_ok.1 hfetch
  have hcreate : f.createPageHandle = .ok (p, page, f) := by
    simp [createPageHandle, hff, show p ≠ rmNoPage from hff ▸ hne, hfetch, Except.map]
  have heq := insertRecord_eq buf ctx hcreate
  obtain ⟨h0, hs, hclear⟩ | ⟨_, hall⟩ := page.bitmap.firstBit_false hn.le
  · let slotNo := page.bitmap.firstBit false f.fileHdr.numRecordsPerPage
    let filled := (page.fillSlot f.fileHdr.recordSize slotNo buf).stamp (stampLsn ctx page.pageLsn)
    have hrecord : ∀ s, filled.record s =
        if s = slotNo then some (memcpy buf f.fileHdr.recordSize) else page.record s :=
      fun s => page.record_fillSlot _ _ s buf
    have hfilled : f.Counts filled := hcounts.fillSlot hn h0 hs hclear buf f.fileHdr.recordSize
    have hempty : f.recordAt ⟨p, slotNo⟩ = none := by
      rw [recordAt_of_fetch ⟨p, slotNo⟩ h1 hfetch]
      exact (page.record_eq_none slotNo).2 hclear
    have hinserted : ∀ {f₁ f' : RmFile}, f₁ = f ∨ f₁ = f.setFirstFree page.nextFreePageNo →
        f' = f₁.setPage p filled →
        f.insertRecord buf ctx = .ok (⟨p, slotNo⟩, f',
          appendLog ctx (.insert (memcpy buf f.fileHdr.recordSize) ⟨p, slotNo⟩ f.tabName)) →
        Inserted f buf ctx ⟨p, slotNo⟩ f' := by
      rintro f₁ f' hf₁ rfl heq
      refine ⟨⟨h1, hlt.le⟩, ⟨h0, hs⟩, hempty, heq, stampLsn ctx page.pageLsn, ?_, stampLsn_of_mem _⟩
      rcases hf₁ with rfl | rfl <;>
        exact wrote_of_setPage ⟨p, slotNo⟩ h1 hfetch ⟨rfl, rfl, rfl⟩ rfl rfl rfl hrecord
    by_cases hfull : page.numRecords + 1 = f.fileHdr.numRecordsPerPage
    · simp only [hfull, if_true] at heq
      refine ⟨_, _, ps, hinserted (.inr rfl) rfl heq, ?_⟩
      have hnodup := List.nodup_cons.1 h.nodup
      exact (h.pop hp).setPage h1 hlt hfilled (fun hmem => absurd hmem hnodup.1) fun hmem => absurd hmem hnodup.1
    · simp only [hfull, if_false] at heq
      refine ⟨_, _, p :: ps, hinserted (.inl rfl) rfl heq, ?_⟩
      refine h.setPage h1 hlt hfilled (fun _ => by simp [nextFree, hp]; rfl) fun _ => ?_
      have hlt' := (Counts.lt_iff hn hcounts).2 ⟨_, h0, hs, hclear⟩
      show page.numRecords + 1 < _
      omega
  · have hlt' := h.notFull p (by simp) page hp
    obtain ⟨s, h0, hs, hclear⟩ := (Counts.lt_iff hn hcounts).1 hlt'
    simp [hall s h0 hs] at hclear

/-- Under the invariant `insert_record(buf)` always finds an empty slot, and keeps the invariant. -/
theorem insertRecord (h : f.HeapInv ps) (buf : Bytes) (ctx : Option Context) :
    ∃ rid f' ps', Inserted f buf ctx rid f' ∧ f'.HeapInv ps' := by
  cases ps with
  | nil =>
    obtain ⟨rid, f', hins, hinv⟩ := h.insertRecord_nil buf ctx
    exact ⟨rid, f', [], hins, hinv⟩
  | cons p ps => exact h.insertRecord_cons buf ctx

theorem updateRecord (h : f.HeapInv ps) (h1 : 1 ≤ rid.pageNo)
    (hok : f.updateRecord rid buf ctx = .ok (f', ctx')) : f'.HeapInv ps := by
  obtain ⟨page, hfetch, hset⟩ := updateRecord_ok hok
  obtain ⟨-, hlt, hp⟩ := fetchPageHandle_eq_ok.1 hfetch
  have heq := updateRecord_eq buf ctx hfetch hset
  rw [hok] at heq
  obtain ⟨rfl, -⟩ := Prod.mk.inj (Except.ok.inj heq)
  have hcounts : f.Counts ((page.overwriteSlot f.fileHdr.recordSize rid.slotNo buf).stamp
      (stampLsn ctx page.pageLsn)) := h.counts _ page h1 hlt hp
  refine h.setPage h1 hlt hcounts (fun _ => by simp [nextFree, hp]; rfl) fun hm => ?_
  exact h.notFull _ hm page hp

section slot
variable (h : f.HeapInv ps) (h1 : 1 ≤ rid.pageNo)
  (hslot : 0 ≤ rid.slotNo ∧ rid.slotNo < f.fileHdr.numRecordsPerPage)
include h h1 hslot

theorem deleteRecord (hok : f.deleteRecord rid ctx = .ok (f', ctx')) : ∃ ps', f'.HeapInv ps' := by
  obtain ⟨page, hfetch, hset⟩ := deleteRecord_ok hok
  obtain ⟨-, hlt, hp⟩ := fetchPageHandle_eq_ok.1 hfetch
  have hcounts := h.counts _ _ h1 hlt hp
  have hn := h.perPage
  let cleared := (page.clearSlot rid.slotNo).stamp (stampLsn ctx page.pageLsn)
  have hcleared : f.Counts cleared := hcounts.clearSlot hn hslot.1 hslot.2 hset
  have hnum : cleared.numRecords = page.numRecords - 1 := rfl
  have heq := deleteRecord_eq ctx hfetch hset
  rw [hok] at heq
  obtain ⟨rfl, -⟩ := Prod.mk.inj (Except.ok.inj heq)
  by_cases hfull : page.numRecords = f.fileHdr.numRecordsPerPage
  · -- the page was full, so it is not on the chain yet
    have hmem : rid.pageNo ∉ ps := fun hmem => by
      have := h.notFull _ hmem page hp
      omega
    simp only [hfull, if_true]
    let released : RmPage := { cleared with nextFreePageNo := f.fileHdr.firstFreePageNo }
    have hreleased : f.Counts released := hcleared
    have hroom : released.numRecords < f.fileHdr.numRecordsPerPage := by
      show page.numRecords - 1 < _
      omega
    have hinv := h.setPage h1 hlt hreleased (fun hm => absurd hm hmem) fun hm => absurd hm hmem
    exact ⟨rid.pageNo :: ps, hinv.push h1 hlt (by simp) rfl hroom⟩
  · simp only [hfull, if_false]
    have hle := Counts.le hn hcounts
    have hroom : cleared.numRecords < f.fileHdr.numRecordsPerPage := by omega
    exact ⟨ps, h.setPage h1 hlt hcleared (fun _ => by simp [nextFree, hp]; rfl) fun _ => hroom⟩

/-- A positional insert keeps the invariant unless it fills a page of the chain. -/
theorem insertRecordAt (hok : f.insertRecordAt rid buf = .ok f')
    (hroom : rid.pageNo ∈ ps → ∀ page, f.pages rid.pageNo = some page → page.bitmap.isSet rid.slotNo = false →
      page.numRecords + 1 < f.fileHdr.numRecordsPerPage) : f'.HeapInv ps := by
  obtain ⟨page, hfetch⟩ := insertRecordAt_ok hok
  obtain ⟨-, hlt, hp⟩ := fetchPageHandle_eq_ok.1 hfetch
  have hcounts := h.counts _ _ h1 hlt hp
  rw [insertRecordAt_eq buf hfetch] at hok
  split at hok
  · exact Except.ok.inj hok ▸ h
  · next hclear =>
    rw [Bool.not_eq_true] at hclear
    rw [← Except.ok.inj hok]
    refine h.setPage h1 hlt (hcounts.fillSlot h.perPage hslot.1 hslot.2 hclear buf f.fileHdr.recordSize)
      (fun _ => by simp [nextFree, hp, RmPage.fillSlot]) fun hm => hroom hm page hp hclear

end slot

end HeapInv

/-! ## Rebuilding the chain -/

/-- The loop invariant: the pages before `p` are counted, and the chain has those of them with a free slot. -/
structure Relinked (f : RmFile) (p : Int) (ps : List Int) : Prop extends Present f where
  counts : ∀ q page, 1 ≤ q → q < p → f.pages q = some page → f.Counts page
  chain : f.FreeList ps
  range : ∀ q ∈ ps, 1 ≤ q ∧ q < p
  mem_iff : ∀ q page, 1 ≤ q → q < p → f.pages q = some page →
    (q ∈ ps ↔ page.numRecords < f.fileHdr.numRecordsPerPage)

/-- The two files differ in the chain and the record counts only. -/
structure SameRecords (f f' : RmFile) : Prop where
  tabName : f'.tabName = f.tabName
  recordSize : f'.fileHdr.recordSize = f.fileHdr.recordSize
  perPage : f'.fileHdr.numRecordsPerPage = f.fileHdr.numRecordsPerPage
  numPages : f'.fileHdr.numPages = f.fileHdr.numPages
  pages : ∀ q, (f'.pages q).map RmPage.data = (f.pages q).map RmPage.data

theorem SameRecords.refl (f : RmFile) : f.SameRecords f := ⟨rfl, rfl, rfl, rfl, fun _ => rfl⟩

theorem SameRecords.trans {f₁ f₂ f₃ : RmFile} (h : f₁.SameRecords f₂) (h' : f₂.SameRecords f₃) :
    f₁.SameRecords f₃ :=
  ⟨h'.tabName.trans h.tabName, h'.recordSize.trans h.recordSize, h'.perPage.trans h.perPage,
    h'.numPages.trans h.numPages, fun q => (h'.pages q).trans (h.pages q)⟩

theorem SameRecords.recordAt (h : f.SameRecords f') (ρ : Rid) : f'.recordAt ρ = f.recordAt ρ := by
  have hp := h.pages ρ.pageNo
  simp only [RmFile.recordAt, h.numPages]
  cases hpage : f.pages ρ.pageNo <;> cases hpage' : f'.pages ρ.pageNo <;> simp_all [RmPage.data, RmPage.record]

theorem SameRecords.lsnAt (h : f.SameRecords f') (q : Int) : f'.lsnAt q = f.lsnAt q := by
  have hp := h.pages q
  simp only [RmFile.lsnAt, h.numPages]
  cases hpage : f.pages q <;> cases hpage' : f'.pages q <;> simp_all [RmPage.data]

theorem SameRecords.setPage {page' : RmPage} (hp : f.pages p = some page) (hdata : page'.data = page.data) :
    f.SameRecords (f.setPage p page') where
  tabName := rfl
  recordSize := rfl
  perPage := rfl
  numPages := rfl
  pages q := by
    by_cases hq : q = p
    · simp [hq, hp, hdata]
    · simp [Function.update_of_ne hq]

/-- Storing the page at `p` with its count and chaining it, or leaving it out when it is full. -/
theorem Relinked.setPage (h : f.Relinked p ps) (h1 : 1 ≤ p) {qs : List Int} (hc : f.Counts page)
    (hchain : f'.FreeList qs) (hpages : f'.pages = (f.setPage p page).pages)
    (hhdr : f'.fileHdr.numPages = f.fileHdr.numPages ∧ f'.fileHdr.numRecordsPerPage = f.fileHdr.numRecordsPerPage)
    (hqs : ∀ q, q ∈ qs ↔ q ∈ ps ∨ q = p ∧ page.numRecords < f.fileHdr.numRecordsPerPage) :
    f'.Relinked (p + 1) qs where
  perPage := by rw [hhdr.2]; exact h.perPage
  numPages := by rw [hhdr.1]; exact h.numPages
  page q hq hq' := by
    rw [hhdr.1] at hq'
    rw [hpages]
    by_cases hqp : q = p
    · exact ⟨page, by simp [hqp]⟩
    · simpa [Function.update_of_ne hqp] using h.page q hq hq'
  chain := hchain
  range q hq := by
    rcases (hqs q).1 hq with hq | ⟨rfl, _⟩
    · have := h.range q hq
      omega
    · omega
  counts q pg hq hq' hpg := by
    rw [Counts, hhdr.2]
    by_cases hqp : q = p
    · simp only [hpages, hqp, setPage_pages, Function.update_self, Option.some.injEq] at hpg
      exact hpg ▸ hc
    · simp only [hpages, setPage_pages, Function.update_of_ne hqp] at hpg
      exact h.counts q pg hq (by omega) hpg
  mem_iff q pg hq hq' hpg := by
    rw [hqs, hhdr.2]
    by_cases hqp : q = p
    · simp only [hpages, hqp, setPage_pages, Function.update_self, Option.some.injEq] at hpg
      have hnot : p ∉ ps := fun hmem => by
        have := (h.range p hmem).2
        omega
      simp [hqp, hnot, hpg]
    · simp only [hpages, setPage_pages, Function.update_of_ne hqp] at hpg
      simpa [hqp] using h.mem_iff q pg hq (by omega) hpg

theorem Relinked.relinkPage (h : f.Relinked p ps) (h1 : 1 ≤ p) (hlt : p < f.fileHdr.numPages) :
    ∃ f' ps', f.relinkPage p = .ok f' ∧ f'.Relinked (p + 1) ps' ∧ f.SameRecords f' := by
  obtain ⟨page, hp⟩ := h.page p h1 hlt
  have hmem : p ∉ ps := fun hmem => by
    have := (h.range p hmem).2
    omega
  have hne : p ≠ rmNoPage := by simp only [rmNoPage]; omega
  let counted (next : Int) : RmPage :=
    { page with numRecords := page.bitmap.count f.fileHdr.numRecordsPerPage.toNat, nextFreePageNo := next }
  have hc : ∀ next, f.Counts (counted next) := fun _ => rfl
  have hkeep : ∀ next, (f.setPage p (counted next)).FreeList ps := fun next => h.chain.setPage fun hm => absurd hm hmem
  have hsame : ∀ next, f.SameRecords (f.setPage p (counted next)) := fun next => .setPage hp rfl
  by_cases hroom : page.bitmap.count f.fileHdr.numRecordsPerPage.toNat < f.fileHdr.numRecordsPerPage
  · let f₁ := f.setPage p (counted f.fileHdr.firstFreePageNo)
    have hsucc : f₁.nextFree p = some f.fileHdr.firstFreePageNo := by simp [f₁, nextFree, counted]
    have hchain : (f₁.setFirstFree p).FreeList (p :: ps) := Chain.cons hne hsucc (hkeep _)
    have heq : f.relinkPage p = .ok (f₁.setFirstFree p) := by
      simp [RmFile.relinkPage, bpmFetch, hp, hroom, bind, Except.bind, f₁, counted, pure, Except.pure]
    have hsame₁ : f.SameRecords (f₁.setFirstFree p) := ⟨rfl, rfl, rfl, rfl, (hsame f.fileHdr.firstFreePageNo).pages⟩
    refine ⟨f₁.setFirstFree p, p :: ps, heq, ?_, hsame₁⟩
    refine h.setPage h1 (hc f.fileHdr.firstFreePageNo) hchain rfl ⟨rfl, rfl⟩ fun q => ?_
    simp [counted, hroom, or_comm]
  · have heq : f.relinkPage p = .ok (f.setPage p (counted rmNoPage)) := by
      simp [RmFile.relinkPage, bpmFetch, hp, hroom, bind, Except.bind, counted, pure, Except.pure]
    refine ⟨f.setPage p (counted rmNoPage), ps, heq, ?_, hsame _⟩
    refine h.setPage h1 (hc rmNoPage) (hkeep _) rfl ⟨rfl, rfl⟩ fun q => ?_
    simp [counted, hroom]

/-- The loop over the pages, by induction on how many are left. -/
theorem Relinked.relinkFrom (k : Nat) (h : f.Relinked p ps) (h1 : 1 ≤ p) (hk : p + k = f.fileHdr.numPages) :
    ∃ f' ps', relinkFrom k p f = .ok f' ∧ f'.Relinked f.fileHdr.numPages ps' ∧ f.SameRecords f' := by
  induction k generalizing f p ps with
  | zero =>
    obtain rfl : p = f.fileHdr.numPages := by omega
    exact ⟨f, ps, rfl, h, .refl f⟩
  | succ k ih =>
    obtain ⟨f₁, ps₁, heq, hrel, hsame⟩ := h.relinkPage h1 (by omega)
    obtain ⟨f₂, ps₂, heq', hrel', hsame'⟩ := ih hrel (by omega) (by rw [hsame.numPages]; omega)
    refine ⟨f₂, ps₂, ?_, hsame.numPages ▸ hrel', hsame.trans hsame'⟩
    simp only [RmFile.relinkFrom, heq, bind, Except.bind, heq']

/-- After the rebuild the chain has exactly the pages with a free slot, and the records are as before. -/
theorem rebuildFreeList_spec (h : f.Present) : ∃ f' ps, f.rebuildFreeList = .ok f' ∧ f'.HeapInv ps ∧
    (∀ p, p ∈ ps ↔ f'.HasFreeSlot p) ∧ f.SameRecords f' := by
  have hnp := h.numPages
  have hstart : (f.setFirstFree rmNoPage).Relinked 1 [] :=
    { perPage := h.perPage
      numPages := h.numPages
      page := h.page
      counts := fun q page hq hq' => by omega
      chain := .nil
      range := by simp
      mem_iff := fun q page hq hq' => by omega }
  obtain ⟨f₁, ps, heq, hrel, hsame⟩ := hstart.relinkFrom (f.fileHdr.numPages - 1).toNat le_rfl
    (by show 1 + _ = f.fileHdr.numPages; omega)
  let f' : RmFile := { f₁ with fd2pageno := f₁.fileHdr.numPages }
  have hnp' : f₁.fileHdr.numPages = f.fileHdr.numPages := hsame.numPages
  have hinv : f'.HeapInv ps :=
    { perPage := hrel.perPage
      numPages := hrel.numPages
      page := hrel.page
      alloc := rfl
      counts := fun q page hq hq' => hrel.counts q page hq (hnp' ▸ hq')
      chain := hrel.chain
      range := fun q hq => by
        have := hrel.range q hq
        exact ⟨this.1, hnp'.symm ▸ this.2⟩
      notFull := fun q hq page hp => by
        have hr := hrel.range q hq
        exact (hrel.mem_iff q page hr.1 hr.2 hp).1 hq }
  refine ⟨f', ps, ?_, hinv, fun p => ⟨fun hp => ?_, fun hp => ?_⟩, ⟨hsame.1, hsame.2, hsame.3, hsame.4, hsame.5⟩⟩
  · simp only [rebuildFreeList, rmFirstRecordPage, heq, bind, Except.bind, pure, Except.pure, f']
  · obtain ⟨qs, hqs, -, hfree⟩ := hinv.freeListOk
    exact hfree p (Chain.unique hinv.chain hqs ▸ hp)
  · obtain ⟨h1, hlt, page, s, hpage, hs⟩ := hp
    exact (hrel.mem_iff p page h1 (hnp' ▸ hlt) hpage).2
      ((hinv.hasFreeSlot_iff h1 hlt hpage).1 ⟨h1, hlt, page, s, hpage, hs⟩)

/-! ## Runs -/

/-- The calls on an open heap file; `insertAt` is the positional insert of a rollback. -/
inductive HeapOp
  | insert (buf : Bytes) (ctx : Option Context)
  | delete (rid : Rid) (ctx : Option Context)
  | update (rid : Rid) (buf : Bytes) (ctx : Option Context)
  | insertAt (rid : Rid) (buf : Bytes)

/-- The file after a call; a call that raises an error leaves it as it was. -/
def step (f : RmFile) : HeapOp → RmFile
  | .insert buf ctx => ((f.insertRecord buf ctx).map (·.2.1)).toOption.getD f
  | .delete rid ctx => ((f.deleteRecord rid ctx).map (·.1)).toOption.getD f
  | .update rid buf ctx => ((f.updateRecord rid buf ctx).map (·.1)).toOption.getD f
  | .insertAt rid buf => (f.insertRecordAt rid buf).toOption.getD f

/-- The rids of a call lie in the data pages and in their slots. -/
def HeapOp.InRange (n : Int) : HeapOp → Prop
  | .insert _ _ => True
  | .delete rid _ | .update rid _ _ | .insertAt rid _ => 1 ≤ rid.pageNo ∧ 0 ≤ rid.slotNo ∧ rid.slotNo < n

instance (n : Int) : (op : HeapOp) → Decidable (op.InRange n)
  | .insert _ _ => .isTrue trivial
  | .delete rid _ | .update rid _ _ | .insertAt rid _ =>
    inferInstanceAs (Decidable (1 ≤ rid.pageNo ∧ 0 ≤ rid.slotNo ∧ rid.slotNo < n))

/-- `insert_record(buf)` returns, and chooses an empty slot of its page. -/
def SlotOk (f : RmFile) : HeapOp → Prop
  | .insert buf ctx => ∃ rid f' ctx', f.insertRecord buf ctx = .ok (rid, f', ctx') ∧
      0 ≤ rid.slotNo ∧ rid.slotNo < f.fileHdr.numRecordsPerPage ∧ f.recordAt rid = none
  | _ => True

theorem SlotOk.lt {buf : Bytes} {ctx : Option Context} {rid : Rid} (h : f.SlotOk (.insert buf ctx))
    (hrid : (f.insertRecord buf ctx).map (·.1) = .ok rid) : rid.slotNo < f.fileHdr.numRecordsPerPage := by
  obtain ⟨rid', f', ctx', heq, -, hlt, -⟩ := h
  rw [heq] at hrid
  exact Except.ok.inj hrid ▸ hlt

/-- At every point of the run the chain is sound and the next insertion stays in its page. -/
def Safe (f : RmFile) : List HeapOp → Prop
  | [] => f.FreeListOk
  | op :: ops => f.FreeListOk ∧ f.SlotOk op ∧ (f.step op).Safe ops

/-- The call is a positional insert that makes a page full while it is on the chain. -/
def Refills (f : RmFile) : HeapOp → Prop
  | .insertAt rid _ => (∃ ps, f.FreeList ps ∧ rid.pageNo ∈ ps) ∧ f.recordAt rid = none ∧
      ∃ page, f.pages rid.pageNo = some page ∧ page.numRecords + 1 = f.fileHdr.numRecordsPerPage
  | _ => False

def NoRefill (f : RmFile) : List HeapOp → Prop
  | [] => True
  | op :: ops => ¬ f.Refills op ∧ (f.step op).NoRefill ops

/-! ## Safety of a run -/

section run
variable {n : Int} {op : HeapOp} {ops : List HeapOp}

/-- One call keeps the invariant, unless it refills. -/
theorem HeapInv.step (h : f.HeapInv ps) (hn : f.fileHdr.numRecordsPerPage = n) (hr : op.InRange n)
    (hno : ¬ f.Refills op) : ∃ ps', (f.step op).HeapInv ps' ∧ (f.step op).fileHdr.numRecordsPerPage = n := by
  subst hn
  cases op with
  | insert buf ctx =>
    obtain ⟨rid, f', ps', hins, hinv⟩ := h.insertRecord buf ctx
    obtain ⟨lsn, hw, -⟩ := hins.wrote
    have hstep : f.step (.insert buf ctx) = f' := by simp [RmFile.step, hins.eq, Except.map, Except.toOption]
    exact ⟨ps', hstep ▸ hinv, hstep ▸ hw.perPage⟩
  | delete rid ctx =>
    obtain ⟨h1, hslot⟩ := hr
    cases hok : f.deleteRecord rid ctx with
    | error e => exact ⟨ps, by simpa [RmFile.step, hok, Except.map, Except.toOption] using h⟩
    | ok r =>
      obtain ⟨page, hfetch, hset⟩ := deleteRecord_ok hok
      obtain ⟨f', heq, hw⟩ := deleteRecord_wrote rid h1 hfetch ctx hset
      have hstep : f.step (.delete rid ctx) = f' := by simp [RmFile.step, heq, Except.map, Except.toOption]
      obtain ⟨ps', hinv⟩ := h.deleteRecord h1 hslot heq
      exact ⟨ps', hstep ▸ hinv, hstep ▸ hw.perPage⟩
  | update rid buf ctx =>
    obtain ⟨h1, -⟩ := hr
    cases hok : f.updateRecord rid buf ctx with
    | error e => exact ⟨ps, by simpa [RmFile.step, hok, Except.map, Except.toOption] using h⟩
    | ok r =>
      obtain ⟨page, hfetch, hset⟩ := updateRecord_ok hok
      obtain ⟨f', heq, hw⟩ := updateRecord_wrote rid h1 hfetch buf ctx hset
      have hstep : f.step (.update rid buf ctx) = f' := by simp [RmFile.step, heq, Except.map, Except.toOption]
      exact ⟨ps, hstep ▸ h.updateRecord h1 heq, hstep ▸ hw.perPage⟩
  | insertAt rid buf =>
    obtain ⟨h1, hslot⟩ := hr
    cases hok : f.insertRecordAt rid buf with
    | error e => exact ⟨ps, by simpa [RmFile.step, hok, Except.toOption] using h⟩
    | ok f' =>
      have hstep : f.step (.insertAt rid buf) = f' := by simp [RmFile.step, hok, Except.toOption]
      refine ⟨ps, hstep ▸ h.insertRecordAt h1 hslot hok fun hmem page hpage hclear => ?_, ?_⟩
      · obtain ⟨-, hlt⟩ := h.range _ hmem
        have hnotFull := h.notFull _ hmem page hpage
        have hne : page.numRecords + 1 ≠ f.fileHdr.numRecordsPerPage := fun hfull =>
          hno ⟨⟨ps, h.chain, hmem⟩, by simp [recordAt, hpage, RmPage.record, hclear], page, hpage, hfull⟩
        omega
      · obtain ⟨page, hfetch⟩ := insertRecordAt_ok hok
        rw [hstep, ← Except.ok.inj ((insertRecordAt_eq buf hfetch).symm.trans hok)]
        split <;> rfl

theorem HeapInv.slotOk (h : f.HeapInv ps) (op : HeapOp) : f.SlotOk op := by
  cases op with
  | insert buf ctx =>
    obtain ⟨rid, f', ps', hins, -⟩ := h.insertRecord buf ctx
    exact ⟨rid, f', _, hins.eq, hins.slot.1, hins.slot.2, hins.empty⟩
  | _ => trivial

/-- A refill leaves a full page on the chain. -/
theorem HeapInv.not_freeListOk_of_refills (h : f.HeapInv ps) (hn : f.fileHdr.numRecordsPerPage = n)
    (hr : op.InRange n) (hre : f.Refills op) : ¬ (f.step op).FreeListOk := by
  subst hn
  cases op with
  | insertAt rid buf =>
    obtain ⟨h1, h0, hslot⟩ := hr
    obtain ⟨⟨qs, hqs, hmem⟩, hempty, page, hpage, hfull⟩ := hre
    obtain rfl : qs = ps := Chain.unique hqs h.chain
    obtain ⟨-, hlt⟩ := h.range _ hmem
    have hfetch : f.fetchPageHandle rid.pageNo = .ok page := fetchPageHandle_eq_ok.2 ⟨by omega, hlt, hpage⟩
    have hclear : page.bitmap.isSet rid.slotNo = false := by
      have : page.record rid.slotNo = none := by rw [← recordAt_of_fetch rid h1 hfetch]; exact hempty
      exact (page.record_eq_none _).1 this
    let filled := page.fillSlot f.fileHdr.recordSize rid.slotNo buf
    have hstep : f.step (.insertAt rid buf) = f.setPage rid.pageNo filled := by
      simp [RmFile.step, insertRecordAt_eq buf hfetch, hclear, Except.toOption, filled]
    have hchain : (f.setPage rid.pageNo filled).FreeList qs :=
      h.chain.setPage fun _ => by simp [nextFree, hpage, filled, RmPage.fillSlot]
    have hcounts : f.Counts filled := (h.counts _ _ h1 hlt hpage).fillSlot h.perPage h0 hslot hclear buf _
    rintro ⟨rs, hrs, -, hfree⟩
    rw [hstep] at hrs hfree
    obtain rfl : rs = qs := Chain.unique hrs hchain
    obtain ⟨-, -, page', s, hpage', hs0, hs, hsclear⟩ := hfree _ hmem
    obtain rfl : filled = page' := by simpa using hpage'
    have : filled.numRecords < f.fileHdr.numRecordsPerPage := (Counts.lt_iff h.perPage hcounts).2 ⟨s, hs0, hs, hsclear⟩
    simp only [filled, RmPage.fillSlot] at this
    omega
  | _ => exact hre.elim

theorem Safe.freeListOk (h : f.Safe ops) : f.FreeListOk := by
  cases ops with
  | nil => exact h
  | cons op ops => exact h.1

/-- From the invariant on a run is safe exactly when none of its calls refills. -/
theorem HeapInv.safe_iff (h : f.HeapInv ps) (hn : f.fileHdr.numRecordsPerPage = n)
    (hr : ∀ op ∈ ops, op.InRange n) : f.Safe ops ↔ f.NoRefill ops := by
  induction ops generalizing f ps with
  | nil => exact ⟨fun _ => trivial, fun _ => h.freeListOk⟩
  | cons op ops ih =>
    have hop := hr op (by simp)
    have hops : ∀ o ∈ ops, o.InRange n := fun o ho => hr o (by simp [ho])
    by_cases hre : f.Refills op
    · refine ⟨fun hsafe => ?_, fun hno => absurd hre hno.1⟩
      exact absurd hsafe.2.2.freeListOk (h.not_freeListOk_of_refills hn hop hre)
    · obtain ⟨ps', hinv, hn'⟩ := h.step hn hop hre
      have := ih hinv hn' hops
      exact ⟨fun hsafe => ⟨hre, this.1 hsafe.2.2⟩, fun hno => ⟨h.freeListOk, h.slotOk op, this.2 hno.2⟩⟩

end run

/-- On a file rebuilt by recovery, `insert_record` stays in its page exactly as long as no rollback of a delete fills
a page that is on the free-page chain. -/
theorem safe_iff_noRefill (f f₀ : RmFile) (hf : f.Present) (h₀ : f.rebuildFreeList = .ok f₀) (ops : List HeapOp)
    (hr : ∀ op ∈ ops, op.InRange f₀.fileHdr.numRecordsPerPage) : f₀.Safe ops ↔ f₀.NoRefill ops := by
  obtain ⟨f', ps, heq, hinv, -, -⟩ := rebuildFreeList_spec hf
  obtain rfl : f' = f₀ := Except.ok.inj (heq.symm.trans h₀)
  exact hinv.safe_iff rfl hr

/-! ## A rollback that breaks insertion -/

/-- A table with records of 512 bytes, whose only page has all its 7 slots in use. -/
def fullFile : RmFile where
  tabName := "t"
  fileHdr := { RmFileHdr.create 512 with numPages := 2 }
  pages := fun p => if p = 1 then some
    { pageLsn := 0
      nextFreePageNo := rmNoPage
      numRecords := 7
      bitmap := fun i => if i = 0 then 0xfe else 0
      slots := fun _ => List.replicate 512 0 } else none
  fd2pageno := 2

theorem fullFile_present : fullFile.Present where
  perPage := by decide
  numPages := by decide
  page p h1 hlt := by
    obtain rfl : p = 1 := by
      have : p < 2 := hlt
      omega
    exact ⟨_, rfl⟩

/-- A transaction deletes a record of the page and is rolled back; then another one inserts. -/
def rollbackOps : List HeapOp :=
  [.delete ⟨1, 0⟩ none, .insertAt ⟨1, 0⟩ (List.replicate 512 0), .insert (List.replicate 512 0) none]

/-- After the rollback the next insertion takes slot 7 of a page that has the slots 0 to 6. -/
theorem not_safe_rollbackOps : fullFile.Present ∧ ∃ f₀, fullFile.rebuildFreeList = .ok f₀ ∧
    (∀ op ∈ rollbackOps, op.InRange f₀.fileHdr.numRecordsPerPage) ∧
    (((f₀.step (.delete ⟨1, 0⟩ none)).step (.insertAt ⟨1, 0⟩ (List.replicate 512 0))).insertRecord
      (List.replicate 512 0) none).map (·.1) = .ok ⟨1, 7⟩ ∧ ¬ f₀.Safe rollbackOps := by
  refine ⟨fullFile_present, _, rfl, by decide, rfl, fun hsafe => ?_⟩
  exact absurd (hsafe.2.2.2.2.2.1.lt rfl) (by decide)

/-- With one more insertion between the two, nothing is refilled. -/
theorem safe_iff_noRefill_fullFile : ∃ f₀, fullFile.rebuildFreeList = .ok f₀ ∧
    (f₀.Safe [.delete ⟨1, 0⟩ none, .insert (List.replicate 512 0) none] ↔
      f₀.NoRefill [.delete ⟨1, 0⟩ none, .insert (List.replicate 512 0) none]) :=
  ⟨_, rfl, safe_iff_noRefill fullFile _ fullFile_present rfl _ (by decide)⟩

end RmFile

end Rmdb
