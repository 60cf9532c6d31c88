import Rmdb.Record.HeapMap

/-!
# Free space in a new heap file

- `OnChain` and `NoLeak`: the pages that `insert_record(buf)` can come back to, and what the chain is for;
- `Sparse`: in a file made by `create_file` the chain stays empty and every page holds at most one record, because
  `create_new_page_handle` does not put the new page on the chain and only a full page that loses a record gets there;
- `noLeak_run_iff`: so nothing leaks exactly as long as nothing was inserted.
-/

namespace Rmdb

namespace RmFile

/-- The page is reached from `first_free_page_no` through `next_free_page_no`. -/
inductive OnChain (f : RmFile) : Int → Prop
  | head (hne : f.fileHdr.firstFreePageNo ≠ rmNoPage) : OnChain f f.fileHdr.firstFreePageNo
  | next {p q : Int} (hp : OnChain f p) (hq : f.nextFree p = some q) (hne : q ≠ rmNoPage) : OnChain f q

/-- Pages with a free slot are on the chain, and `insert_record(buf)` adds a page only when there is none. -/
structure NoLeak (f : RmFile) : Prop where
  reachable : ∀ p, f.HasFreeSlot p → f.OnChain p
  allocates : ∀ buf ctx rid f' ctx', f.insertRecord buf ctx = .ok (rid, f', ctx') →
    f.fileHdr.numPages < f'.fileHdr.numPages → ∀ p, ¬f.HasFreeSlot p

/-- A call of `insert_record(buf)`. -/
def HeapOp.isInsert : HeapOp → Bool
  | .insert _ _ => true
  | _ => false

/-- A positional insert. -/
def HeapOp.isInsertAt : HeapOp → Bool
  | .insertAt _ _ => true
  | _ => false

/-- The chain is empty and no page holds more than one record. -/
structure Sparse (f : RmFile) (numPages : Int) : Prop where
  inv : f.HeapInv []
  room : 1 < f.fileHdr.numRecordsPerPage
  pages : f.fileHdr.numPages = numPages
  few : ∀ p page, 1 ≤ p → p < numPages → f.pages p = some page → page.numRecords ≤ 1

variable {f : RmFile} {n : Int}

/-- A page has room for more than one record of any size that is allowed. -/
theorem create_perPage_gt_one {recordSize : Int} (h1 : 1 ≤ recordSize) (hle : recordSize ≤ rmMaxRecordSize) :
    1 < (RmFileHdr.create recordSize).numRecordsPerPage := by
  simp only [RmFileHdr.create, Bitmap.bitmapWidth, pageSize, rmMaxRecordSize] at hle ⊢
  have h2 : 2 ≤ (8 * (4096 - 1 - 20) + 1) / (1 + recordSize * 8) :=
    (Int.le_ediv_iff_mul_le (by omega)).2 (by omega)
  omega

theorem Sparse.newFile (tabName : TabName) {recordSize : Int} (h1 : 1 ≤ recordSize)
    (hle : recordSize ≤ rmMaxRecordSize) : (newFile tabName recordSize).Sparse 1 where
  inv := by
    refine ⟨⟨⟨RmFileHdr.create_perPage_pos h1 hle, Int.le_refl 1, ?_⟩, rfl⟩, ?_, .nil, by simp, by simp⟩
    · intro p hp hlt
      have hlt : p < 1 := hlt
      omega
    · intro p page hp hlt
      have hlt : p < 1 := hlt
      omega
  room := create_perPage_gt_one h1 hle
  pages := rfl
  few p page hp hlt := by omega

/-- The record goes to a new page, although there may be room in the others. -/
theorem Sparse.insert (h : f.Sparse n) (buf : Bytes) (ctx : Option Context) :
    (f.step (.insert buf ctx)).Sparse (n + 1) := by
  have hff := h.inv.firstFree_nil
  have halloc : f.fd2pageno = n := h.inv.alloc.trans h.pages
  have hcreate : f.createPageHandle = .ok (f.fd2pageno, RmPage.fresh f.fileHdr.recordSize, f.grow) := by
    simp [createPageHandle, hff, createNewPageHandle_eq]
  have heq := insertRecord_eq buf ctx hcreate
  have hone : (RmPage.fresh f.fileHdr.recordSize).numRecords + 1 ≠ f.grow.fileHdr.numRecordsPerPage := by
    have hroom := h.room
    show (0 : Int) + 1 ≠ f.fileHdr.numRecordsPerPage
    omega
  simp only [hone, if_false] at heq
  obtain ⟨rid, f', hins, hinv⟩ := h.inv.insertRecord_nil buf ctx
  have hstep : f.step (.insert buf ctx) = f' := by simp [step, hins.eq, Except.map, Except.toOption]
  rw [hstep]
  rw [hins.eq] at heq
  obtain ⟨-, heq⟩ := Prod.mk.inj (Except.ok.inj heq)
  obtain ⟨rfl, -⟩ := Prod.mk.inj heq
  refine ⟨hinv, h.room, by simp [h.pages], ?_⟩
  intro p page hp hlt hpage
  by_cases hpe : p = f.fd2pageno
  · subst hpe
    simp only [setPage_pages, Function.update_self, Option.some.injEq] at hpage
    subst hpage
    exact Int.le_refl 1
  · simp only [setPage_pages, Function.update_of_ne hpe] at hpage
    exact h.few p page hp (by omega) hpage

/-- Storing a page that keeps its count low. -/
theorem Sparse.setPage {p : Int} {page : RmPage} (h : f.Sparse n) (hp : 1 ≤ p) (hlt : p < n) (hc : f.Counts page)
    (hle : page.numRecords ≤ 1) : (f.setPage p page).Sparse n where
  inv := h.inv.setPage hp (h.pages ▸ hlt) hc (by simp) (by simp)
  room := h.room
  pages := h.pages
  few q pg hq hq' hpg := by
    by_cases hqe : q = p
    · subst hqe
      simp only [setPage_pages, Function.update_self, Option.some.injEq] at hpg
      exact hpg ▸ hle
    · simp only [setPage_pages, Function.update_of_ne hqe] at hpg
      exact h.few q pg hq hq' hpg

/-- No page is full, so none gets on the chain. -/
theorem Sparse.delete (h : f.Sparse n) {rid : Rid} (h1 : 1 ≤ rid.pageNo) (hslot : 0 ≤ rid.slotNo)
    (hlt : rid.slotNo < f.fileHdr.numRecordsPerPage) (ctx : Option Context) : (f.step (.delete rid ctx)).Sparse n := by
  cases hok : f.deleteRecord rid ctx with
  | error e => simpa [RmFile.step, hok, Except.map, Except.toOption] using h
  | ok r =>
    obtain ⟨page, hfetch, hset⟩ := deleteRecord_ok hok
    obtain ⟨-, hin, hpage⟩ := fetchPageHandle_eq_ok.1 hfetch
    have hfew := h.few rid.pageNo page h1 (h.pages ▸ hin) hpage
    have hroom := h.room
    have heq := deleteRecord_eq ctx hfetch hset
    simp only [show page.numRecords ≠ f.fileHdr.numRecordsPerPage by omega, if_false] at heq
    have hstep : f.step (.delete rid ctx) =
        f.setPage rid.pageNo ((page.clearSlot rid.slotNo).stamp (stampLsn ctx page.pageLsn)) := by
      simp [RmFile.step, heq, Except.map, Except.toOption]
    rw [hstep]
    have hcounts := h.inv.counts rid.pageNo page h1 hin hpage
    have hcleared : f.Counts ((page.clearSlot rid.slotNo).stamp (stampLsn ctx page.pageLsn)) :=
      hcounts.clearSlot h.inv.perPage hslot hlt hset
    apply h.setPage h1 (h.pages ▸ hin) hcleared
    show page.numRecords - 1 ≤ 1
    omega

theorem Sparse.update (h : f.Sparse n) {rid : Rid} (h1 : 1 ≤ rid.pageNo) (buf : Bytes) (ctx : Option Context) :
    (f.step (.update rid buf ctx)).Sparse n := by
  cases hok : f.updateRecord rid buf ctx with
  | error e => simpa [RmFile.step, hok, Except.map, Except.toOption] using h
  | ok r =>
    obtain ⟨page, hfetch, hset⟩ := updateRecord_ok hok
    obtain ⟨-, hin, hpage⟩ := fetchPageHandle_eq_ok.1 hfetch
    have hstep : f.step (.update rid buf ctx) = f.setPage rid.pageNo
        ((page.overwriteSlot f.fileHdr.recordSize rid.slotNo buf).stamp (stampLsn ctx page.pageLsn)) := by
      simp [RmFile.step, updateRecord_eq buf ctx hfetch hset, Except.map, Except.toOption]
    rw [hstep]
    have hcounts : f.Counts ((page.overwriteSlot f.fileHdr.recordSize rid.slotNo buf).stamp
        (stampLsn ctx page.pageLsn)) := h.inv.counts rid.pageNo page h1 hin hpage
    exact h.setPage h1 (h.pages ▸ hin) hcounts (h.few rid.pageNo page h1 (h.pages ▸ hin) hpage)

/-! ## Runs -/

/-- The file after the calls. -/
def run (f : RmFile) (ops : List HeapOp) : RmFile := ops.foldl step f

/-- A call adds a page exactly if it is an `insert_record(buf)`. -/
theorem Sparse.step (h : f.Sparse n) {op : HeapOp} (hr : op.InRange f.fileHdr.numRecordsPerPage)
    (hat : op.isInsertAt = false) : (f.step op).Sparse (if op.isInsert then n + 1 else n) := by
  cases op with
  | insert buf ctx => exact h.insert buf ctx
  | delete rid ctx => exact h.delete hr.1 hr.2.1 hr.2.2 ctx
  | update rid buf ctx => exact h.update hr.1 buf ctx
  | insertAt rid buf => cases hat

theorem Sparse.perPage_step (h : f.Sparse n) {op : HeapOp} (hr : op.InRange f.fileHdr.numRecordsPerPage)
    (hat : op.isInsertAt = false) :
    (f.step op).fileHdr.numRecordsPerPage = f.fileHdr.numRecordsPerPage := by
  have hno : ¬f.Refills op := by
    cases op with
    | insertAt rid buf => cases hat
    | _ => exact id
  obtain ⟨-, -, hperPage⟩ := h.inv.step rfl hr hno
  exact hperPage

/-- Every `insert_record(buf)` of a run adds a page. -/
theorem Sparse.run {perPage : Int} : ∀ {ops : List HeapOp} {f : RmFile} {n : Int}, f.Sparse n →
    f.fileHdr.numRecordsPerPage = perPage → (∀ op ∈ ops, op.InRange perPage) → (∀ op ∈ ops, op.isInsertAt = false) →
    ∃ m, (f.run ops).Sparse m ∧ n ≤ m ∧ (m = n ↔ ∀ op ∈ ops, op.isInsert = false)
  | [], f, n, h, _, _, _ => ⟨n, h, Int.le_refl n, by simp⟩
  | op :: ops, f, n, h, hn, hr, hat => by
    subst hn
    have hop := hr op List.mem_cons_self
    have hopat := hat op List.mem_cons_self
    obtain ⟨m, hm, hle, hiff⟩ := Sparse.run (h.step hop hopat) (h.perPage_step hop hopat)
      (fun o ho => hr o (List.mem_cons_of_mem op ho)) (fun o ho => hat o (List.mem_cons_of_mem op ho))
    refine ⟨m, hm, ?_, ?_⟩
    · split at hle <;> omega
    · rw [List.forall_mem_cons]
      by_cases hins : op.isInsert = true
      · rw [if_pos hins] at hle
        simp only [hins, Bool.true_eq_false, false_and, iff_false]
        omega
      · rw [if_neg hins] at hiff
        simpa [hins] using hiff

/-- A page of a sparse file has a free slot, and nothing leads to it. -/
theorem Sparse.noLeak_iff (h : f.Sparse n) : f.NoLeak ↔ n = 1 := by
  have hn := h.inv.numPages
  rw [h.pages] at hn
  constructor
  · intro hno
    by_contra hne
    have hlt : (1 : Int) < f.fileHdr.numPages := by
      rw [h.pages]
      omega
    obtain ⟨page, hpage⟩ := h.inv.page 1 (Int.le_refl 1) hlt
    have hfew := h.few 1 page (Int.le_refl 1) (h.pages ▸ hlt) hpage
    have hroom := h.room
    have hfree : f.HasFreeSlot 1 := (h.inv.hasFreeSlot_iff (Int.le_refl 1) hlt hpage).2 (by omega)
    have hchain : ∀ p, ¬f.OnChain p := by
      intro p hp
      induction hp with
      | head hne => exact hne h.inv.firstFree_nil
      | next _ _ _ ih => exact ih
    exact hchain 1 (hno.reachable 1 hfree)
  · rintro rfl
    have hfull : ∀ p, ¬f.HasFreeSlot p := by
      rintro p ⟨h1, hlt, -⟩
      rw [h.pages] at hlt
      omega
    exact ⟨fun p hp => absurd hp (hfull p), fun _ _ _ _ _ _ _ => hfull⟩

/-- In a file made by `create_file` nothing leaks exactly as long as nothing was inserted. -/
theorem noLeak_run_iff (tabName : TabName) {recordSize : Int} (h1 : 1 ≤ recordSize)
    (hle : recordSize ≤ rmMaxRecordSize) {ops : List HeapOp}
    (hr : ∀ op ∈ ops, op.InRange (RmFileHdr.create recordSize).numRecordsPerPage)
    (hat : ∀ op ∈ ops, op.isInsertAt = false) :
    ((newFile tabName recordSize).run ops).NoLeak ↔ ∀ op ∈ ops, op.isInsert = false := by
  obtain ⟨m, hm, -, hiff⟩ := (Sparse.newFile tabName h1 hle).run rfl hr hat
  rw [hm.noLeak_iff, hiff]

/-- Two records go to two pages of seven slots each. -/
def twoInserts : List HeapOp := [.insert (List.replicate 512 1) none, .insert (List.replicate 512 2) none]

theorem noLeak_run_iff_twoInserts :
    ((newFile "t" 512).run twoInserts).NoLeak ↔ ∀ op ∈ twoInserts, op.isInsert = false :=
  noLeak_run_iff "t" (by decide) (by decide) (by decide) (by decide)

/-- After the first of them page 1 has a free slot, but the second allocates page 2. -/
theorem not_noLeak_twoInserts : ¬∀ (tabName : TabName) (recordSize : Int) (ops : List HeapOp), 1 ≤ recordSize →
    recordSize ≤ rmMaxRecordSize → (∀ op ∈ ops, op.InRange (RmFileHdr.create recordSize).numRecordsPerPage) →
    (∀ op ∈ ops, op.isInsertAt = false) → ((newFile tabName recordSize).run ops).NoLeak := by
  intro h
  have hno := h "t" 512 twoInserts (by decide) (by decide) (by decide) (by decide)
  obtain ⟨m, hm, -, hiff⟩ := (Sparse.newFile "t" (by decide) (by decide)).run rfl
    (show ∀ op ∈ twoInserts, op.InRange (newFile "t" 512).fileHdr.numRecordsPerPage by decide) (by decide)
  have hnone := hiff.1 (hm.noLeak_iff.1 hno)
  exact absurd (hnone _ List.mem_cons_self) (by decide)

end RmFile

end Rmdb
