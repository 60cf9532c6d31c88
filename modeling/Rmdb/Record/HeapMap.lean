import Rmdb.Record.FreeList

/-!
# Heap files as maps from rid to record

- `HeapOps`: the operations of a heap file that executors and roll-back call;
- `HeapMap`: what makes such a file a map. A `Sound` file answers and changes as a map; a `Good` one can also choose the
  place of a new record;
- `RmFile.heapMap`: the heap files of `FileHandle` are such maps. Good means that the free-page chain has only pages
  with a free slot; the positional insert of a roll-back may leave a file that is only sound.
-/

namespace Rmdb

structure HeapOps (H : Type) where
  /-- `get_file_hdr`. -/
  fileHdr : H → RmFileHdr
  fetchPageHandle : H → Int → Except RMDBError RmPage
  getRecord : H → Rid → Except RMDBError Bytes
  insertRecord : H → Bytes → Option Context → Except RMDBError (Rid × H × Option Context)
  /-- `insert_record(rid, buf)`. -/
  insertRecordAt : H → Rid → Bytes → Except RMDBError H
  deleteRecord : H → Rid → Option Context → Except RMDBError (H × Option Context)
  updateRecord : H → Rid → Bytes → Option Context → Except RMDBError (H × Option Context)

/-- The record size of the file. -/
def HeapOps.size {H : Type} (ops : HeapOps H) (h : H) : Nat := (ops.fileHdr h).recordSize.toNat

/-- The file seen as a map. -/
structure HeapView (H : Type) where
  view : H → Rid → Option Bytes
  Sound : H → Prop
  Good : H → Prop
  /-- The rid names a slot of a data page, which may not be there yet. -/
  Slot : H → Rid → Prop
  /-- The page of the slot is there. -/
  Room : H → Rid → Prop

/-- `h'` is `h` with `v` at `rid`. -/
structure HeapView.Put {H : Type} (V : HeapView H) (ops : HeapOps H) (h h' : H) (rid : Rid) (v : Option Bytes) :
    Prop where
  sound : V.Sound h'
  view : V.view h' = Function.update (V.view h) rid v
  size : ops.size h' = ops.size h
  slot : ∀ ρ, V.Slot h ρ → V.Slot h' ρ
  room : ∀ ρ, V.Room h ρ → V.Room h' ρ

structure HeapMap {H : Type} (ops : HeapOps H) extends HeapView H where
  sound_of_good : ∀ {h}, Good h → Sound h
  sized : ∀ {h rid b}, Sound h → view h rid = some b → b.length = ops.size h
  room_of_some : ∀ {h rid b}, Sound h → view h rid = some b → Room h rid
  getRecord_some : ∀ {h rid b}, Sound h → view h rid = some b → ops.getRecord h rid = .ok b
  getRecord_none : ∀ {h rid}, Sound h → Slot h rid → view h rid = none → ∃ e, ops.getRecord h rid = .error e
  insertRecord : ∀ {h buf}, Good h → buf.length = ops.size h → ∀ ctx, ∃ rid h' ctx',
    ops.insertRecord h buf ctx = .ok (rid, h', ctx') ∧ view h rid = none ∧ Good h' ∧
      toHeapView.Put ops h h' rid (some buf)
  deleteRecord : ∀ {h rid b}, Sound h → view h rid = some b → ∀ ctx, ∃ h' ctx',
    ops.deleteRecord h rid ctx = .ok (h', ctx') ∧ (Good h → Good h') ∧ toHeapView.Put ops h h' rid none
  updateRecord : ∀ {h rid b buf}, Sound h → view h rid = some b → buf.length = ops.size h → ∀ ctx, ∃ h' ctx',
    ops.updateRecord h rid buf ctx = .ok (h', ctx') ∧ (Good h → Good h') ∧ toHeapView.Put ops h h' rid (some buf)
  insertRecordAt : ∀ {h rid buf}, Sound h → Room h rid → view h rid = none → buf.length = ops.size h → ∃ h',
    ops.insertRecordAt h rid buf = .ok h' ∧ toHeapView.Put ops h h' rid (some buf)

namespace RmFile

/-! ## The files of `FileHandle` -/

def heapOps : HeapOps RmFile where
  fileHdr := (·.fileHdr)
  fetchPageHandle := fetchPageHandle
  getRecord := getRecord
  insertRecord := insertRecord
  insertRecordAt := insertRecordAt
  deleteRecord := deleteRecord
  updateRecord := updateRecord

/-- A slot of a data page. -/
def InSlots (f : RmFile) (rid : Rid) : Prop :=
  1 ≤ rid.pageNo ∧ 0 ≤ rid.slotNo ∧ rid.slotNo < f.fileHdr.numRecordsPerPage

/-- The records in the slots of the data pages, which are the ones `RmScan` delivers. -/
def view (f : RmFile) (rid : Rid) : Option Bytes :=
  if 0 ≤ rid.slotNo ∧ rid.slotNo < f.fileHdr.numRecordsPerPage then f.recordAt rid else none

/-- Every record has `record_size` bytes. -/
def Sized (f : RmFile) : Prop := ∀ rid b, f.view rid = some b → b.length = f.fileHdr.recordSize.toNat

def heapView : HeapView RmFile where
  view := view
  Sound f := f.Ready ∧ f.Sized
  Good f := (∃ ps, f.HeapInv ps) ∧ f.Sized
  Slot := InSlots
  Room f rid := f.InSlots rid ∧ rid.pageNo < f.fileHdr.numPages

section view
variable {f f' : RmFile} {rid : Rid} {b buf : Bytes} {lsn : Int} {r : Option Bytes} {ctx : Option Context}

theorem view_of_inSlots (h : f.InSlots rid) : f.view rid = f.recordAt rid := by
  simp [view, h.2]

/-- Where there is a record there is a page with its bit set. -/
theorem page_of_view (h : f.view rid = some b) : f.InSlots rid ∧ rid.pageNo < f.fileHdr.numPages ∧
    ∃ page, f.fetchPageHandle rid.pageNo = .ok page ∧ page.bitmap.isSet rid.slotNo = true ∧
      page.slots rid.slotNo = b := by
  unfold view at h
  split at h
  · next hslot =>
    unfold recordAt at h
    split at h
    · next hpage =>
      obtain ⟨page, hp, hrec⟩ := Option.bind_eq_some_iff.1 h
      unfold RmPage.record at hrec
      split at hrec
      · next hset =>
        refine ⟨⟨hpage.1, hslot⟩, hpage.2, page, ?_, hset, Option.some.inj hrec⟩
        exact fetchPageHandle_eq_ok.2 ⟨by omega, hpage.2, hp⟩
      · cases hrec
    · cases h
  · cases h

theorem memcpy_of_length (h : buf.length = f.fileHdr.recordSize.toNat) : memcpy buf f.fileHdr.recordSize = buf := by
  rw [memcpy, ← h, List.take_length]

theorem Sized.update (hs : f.Sized) (hw : f.Wrote f' rid lsn r) (hr : ∀ b ∈ r, b.length = f.fileHdr.recordSize.toNat) :
    f'.Sized := by
  intro ρ b hb
  unfold view at hb
  rw [hw.perPage, hw.recordAt ρ] at hb
  rw [hw.recordSize]
  split at hb
  · next hslot =>
    split at hb
    · exact hr b hb
    · exact hs ρ b (by simp [view, hslot, hb])
  · cases hb

theorem Wrote.put (hf : f.Ready ∧ f.Sized) (hin : f.InSlots rid) (hw : f.Wrote f' rid lsn r)
    (hr : ∀ b ∈ r, b.length = f.fileHdr.recordSize.toNat) : heapView.Put heapOps f f' rid r where
  sound := ⟨hw.ready hf.1, hf.2.update hw hr⟩
  view := by
    funext ρ
    show f'.view ρ = _
    unfold RmFile.view
    rw [hw.perPage, hw.recordAt ρ]
    by_cases hρ : ρ = rid
    · simp [hρ, hin.2]
    · simp [hρ, heapView, RmFile.view]
  size := by simp [HeapOps.size, heapOps, hw.recordSize]
  slot ρ hρ := ⟨hρ.1, by rw [hw.perPage]; exact hρ.2⟩
  room ρ hρ := by
    refine ⟨⟨hρ.1.1, by rw [hw.perPage]; exact hρ.1.2⟩, ?_⟩
    have := hρ.2
    rw [hw.numPages]
    omega

theorem getRecord_of_view (hs : f.Sized) (h : f.view rid = some b) : f.getRecord rid = .ok b := by
  obtain ⟨-, -, page, hfetch, hset, rfl⟩ := page_of_view h
  have hlen := memcpy_of_length (hs rid _ h)
  simp [getRecord, hfetch, bind, Except.bind, hset, hlen, pure, Except.pure]

theorem getRecord_of_view_none (hin : f.InSlots rid) (h : f.view rid = none) : ∃ e, f.getRecord rid = .error e := by
  rw [view_of_inSlots hin] at h
  cases hfetch : f.fetchPageHandle rid.pageNo with
  | error e => exact ⟨e, by simp [getRecord, hfetch, bind, Except.bind]⟩
  | ok page =>
    have hrec := recordAt_of_fetch rid hin.1 hfetch rid.slotNo
    rw [h, eq_comm, RmPage.record_eq_none] at hrec
    exact ⟨.recordNotFound rid.pageNo rid.slotNo,
      by simp [getRecord, hfetch, bind, Except.bind, hrec, throw, throwThe, MonadExceptOf.throw]⟩

theorem insertRecord_put {ps : List Int} (h : f.HeapInv ps) (hs : f.Sized)
    (hlen : buf.length = f.fileHdr.recordSize.toNat) (ctx : Option Context) : ∃ rid f' ctx',
    f.insertRecord buf ctx = .ok (rid, f', ctx') ∧ f.view rid = none ∧ heapView.Good f' ∧
      heapView.Put heapOps f f' rid (some buf) := by
  obtain ⟨rid, f', ps', hins, hinv⟩ := h.insertRecord buf ctx
  obtain ⟨lsn, hw, -⟩ := hins.wrote
  rw [memcpy_of_length hlen] at hw
  have hin : f.InSlots rid := ⟨hins.page.1, hins.slot⟩
  have hput := Wrote.put ⟨h.toReady, hs⟩ hin hw (by simp [hlen])
  exact ⟨rid, f', _, hins.eq, by rw [view_of_inSlots hin, hins.empty], ⟨⟨ps', hinv⟩, hput.sound.2⟩, hput⟩

theorem deleteRecord_put (hf : f.Ready ∧ f.Sized) (hb : f.view rid = some b) (ctx : Option Context) : ∃ f' ctx',
    f.deleteRecord rid ctx = .ok (f', ctx') ∧ (heapView.Good f → heapView.Good f') ∧
      heapView.Put heapOps f f' rid none := by
  obtain ⟨hin, -, page, hfetch, hset, -⟩ := page_of_view hb
  obtain ⟨f', hok, hw⟩ := deleteRecord_wrote rid hin.1 hfetch ctx hset
  have hput := Wrote.put hf hin hw (by simp)
  refine ⟨f', _, hok, fun hg => ?_, hput⟩
  obtain ⟨ps, hinv⟩ := hg.1
  exact ⟨hinv.deleteRecord hin.1 hin.2 hok, hput.sound.2⟩

theorem updateRecord_put (hf : f.Ready ∧ f.Sized) (hb : f.view rid = some b)
    (hlen : buf.length = f.fileHdr.recordSize.toNat) (ctx : Option Context) : ∃ f' ctx',
    f.updateRecord rid buf ctx = .ok (f', ctx') ∧ (heapView.Good f → heapView.Good f') ∧
      heapView.Put heapOps f f' rid (some buf) := by
  obtain ⟨hin, -, page, hfetch, hset, -⟩ := page_of_view hb
  obtain ⟨f', hok, hw⟩ := updateRecord_wrote rid hin.1 hfetch buf ctx hset
  rw [memcpy_of_length hlen] at hw
  have hput := Wrote.put hf hin hw (by simp [hlen])
  refine ⟨f', _, hok, fun hg => ?_, hput⟩
  obtain ⟨ps, hinv⟩ := hg.1
  exact ⟨⟨ps, hinv.updateRecord hin.1 hok⟩, hput.sound.2⟩

theorem insertRecordAt_put (hf : f.Ready ∧ f.Sized) (hroom : heapView.Room f rid) (hnone : f.view rid = none)
    (hlen : buf.length = f.fileHdr.recordSize.toNat) : ∃ f', f.insertRecordAt rid buf = .ok f' ∧
      heapView.Put heapOps f f' rid (some buf) := by
  obtain ⟨hin, hlt⟩ := hroom
  obtain ⟨page, hp⟩ := hf.1.page rid.pageNo hin.1 hlt
  have hfetch : f.fetchPageHandle rid.pageNo = .ok page :=
    fetchPageHandle_eq_ok.2 ⟨by have := hin.1; omega, hlt, hp⟩
  have hclear := recordAt_of_fetch rid hin.1 hfetch rid.slotNo
  rw [← view_of_inSlots hin, hnone, eq_comm, RmPage.record_eq_none] at hclear
  obtain ⟨f', hok, hw⟩ := insertRecordAt_wrote rid hin.1 hfetch buf hclear
  rw [memcpy_of_length hlen] at hw
  exact ⟨f', hok, Wrote.put hf hin hw (by simp [hlen])⟩

end view

/-- The heap files are maps from rid to record. -/
def heapMap : HeapMap heapOps where
  toHeapView := heapView
  sound_of_good h := ⟨h.1.choose_spec.toReady, h.2⟩
  sized h hb := h.2 _ _ hb
  room_of_some _ hb := ⟨(page_of_view hb).1, (page_of_view hb).2.1⟩
  getRecord_some h hb := getRecord_of_view h.2 hb
  getRecord_none _ hin hb := getRecord_of_view_none hin hb
  insertRecord h hlen ctx := insertRecord_put h.1.choose_spec h.2 hlen ctx
  deleteRecord h hb ctx := deleteRecord_put h hb ctx
  updateRecord h hb hlen ctx := updateRecord_put h hb hlen ctx
  insertRecordAt h hroom hnone hlen := insertRecordAt_put h hroom hnone hlen

/-! ## New files -/

/-- A file that `create_file` has just made. -/
def newFile (tabName : TabName) (recordSize : Int) : RmFile :=
  openFile tabName (RmFileHdr.create recordSize) fun _ => none

theorem newFile_view (tabName : TabName) (recordSize : Int) (rid : Rid) : (newFile tabName recordSize).view rid = none := by
  have hnp : (newFile tabName recordSize).fileHdr.numPages = 1 := rfl
  have hout : ¬ (1 ≤ rid.pageNo ∧ rid.pageNo < 1) := by omega
  simp [view, recordAt, hnp, hout]

theorem newFile_good (tabName : TabName) {recordSize : Int} (h1 : 1 ≤ recordSize) (hle : recordSize ≤ rmMaxRecordSize) :
    heapView.Good (newFile tabName recordSize) := by
  refine ⟨⟨[], ⟨⟨⟨RmFileHdr.create_perPage_pos h1 hle, le_rfl, ?_⟩, rfl⟩, ?_, .nil, ?_, ?_⟩⟩, ?_⟩
  · intro p hp hlt
    exact absurd hlt (by show ¬ p < 1; omega)
  · intro p page hp hlt
    exact absurd hlt (by show ¬ p < 1; omega)
  · exact fun p hp => absurd hp List.not_mem_nil
  · exact fun p hp => absurd hp List.not_mem_nil
  · intro rid b hb
    rw [newFile_view] at hb
    cases hb

end RmFile

end Rmdb
