import Rmdb.Record.PageHandle

/-!
# The heap file as a map

- `RmScan`: the scan of `rm_scan.cpp` on files of images, and the loop that visits what it delivers;
- `FileCall`: insertions, updates, deletions and re-opening of a file, with their effect on a map from rid to record;
- `RecordMap`: what the file answers about its records is what the map says;
- `run_recordMap`: it does after every run of calls, from a new file or from one that recovery has rebuilt.
-/

namespace Rmdb

/-- The order of the slots in the file. -/
def Rid.Before (a b : Rid) : Prop := a.pageNo < b.pageNo ∨ a.pageNo = b.pageNo ∧ a.slotNo < b.slotNo

namespace RmFileHandle

/-- A slot of a page of the file. -/
def InFile (g : RmFileHandle) (rid : Rid) : Prop :=
  (1 ≤ rid.pageNo ∧ rid.pageNo < g.fileHdr.numPages) ∧ 0 ≤ rid.slotNo ∧ rid.slotNo < g.fileHdr.numRecordsPerPage

instance (g : RmFileHandle) (rid : Rid) : Decidable (g.InFile rid) := by
  unfold InFile
  infer_instance

/-- The records of the file, by their bits. -/
def records (g : RmFileHandle) (rid : Rid) : Option Bytes :=
  if g.InFile rid then
    (g.pages rid.pageNo).bind fun image =>
      if Bitmap.isSet image.bitmap rid.slotNo then some (image.getSlot g.fileHdr rid.slotNo) else none
  else none

/-! ## Scans -/

end RmFileHandle

namespace RmScan

/-- The loop of `next`, with `k` pages left. -/
def nextFrom (g : RmFileHandle) : Nat → Rid → Except RMDBError Rid
  | 0, rid => .ok rid
  | k + 1, rid => do
    let image ← g.fetchPageHandle rid.pageNo
    let slotNo := Bitmap.nextBit true image.bitmap g.fileHdr.numRecordsPerPage rid.slotNo
    if slotNo < g.fileHdr.numRecordsPerPage then return ⟨rid.pageNo, slotNo⟩
    else nextFrom g k ⟨rid.pageNo + 1, -1⟩

/-- `RmScan::next` from `rid`. -/
def next (g : RmFileHandle) (rid : Rid) : Except RMDBError Rid := nextFrom g (g.fileHdr.numPages - rid.pageNo).toNat rid

/-- The constructor. -/
def start (g : RmFileHandle) : Except RMDBError Rid := next g ⟨rmFirstRecordPage, -1⟩

def isEnd (g : RmFileHandle) (rid : Rid) : Bool := rid.pageNo ≥ g.fileHdr.numPages

/-- `for (; !scan.is_end(); scan.next())` visits these rids, in at most `fuel` rounds. -/
def visit (g : RmFileHandle) : Nat → Rid → Except RMDBError (List Rid)
  | 0, _ => .ok []
  | fuel + 1, rid => if isEnd g rid then .ok [] else do
    let rid' ← next g rid
    return rid :: (← visit g fuel rid')

def scan (g : RmFileHandle) (fuel : Nat) : Except RMDBError (List Rid) := do visit g fuel (← start g)

end RmScan

/-- What `next_bit` finds is the first such position after `curr`. -/
theorem Bitmap.scan_first (bit : Bool) (bm : Bitmap) (maxN : Int) : ∀ (k : Nat) (i : Int), i + k = maxN →
    i ≤ scan bit bm maxN k i ∧ (∀ j, i ≤ j → j < scan bit bm maxN k i → bm.isSet j ≠ bit) ∧
      (scan bit bm maxN k i < maxN → bm.isSet (scan bit bm maxN k i) = bit) ∧ scan bit bm maxN k i ≤ maxN
  | 0, i, h => by
    have h0 : i = maxN := by omega
    simp only [scan, h0]
    exact ⟨Int.le_refl _, fun j hj hj' => by omega, fun h => absurd h (Int.lt_irrefl _), Int.le_refl _⟩
  | k + 1, i, h => by
    obtain ⟨hlo, hbefore, hfound, hhi⟩ := scan_first bit bm maxN k (i + 1) (by omega)
    unfold scan
    by_cases hi : bm.isSet i = bit
    · simp only [hi, beq_self_eq_true, if_true]
      exact ⟨Int.le_refl _, fun j hj hj' => by omega, fun _ => trivial, by omega⟩
    · simp only [beq_iff_eq, hi, if_false]
      refine ⟨by omega, fun j hj hj' => ?_, hfound, hhi⟩
      rcases Int.lt_or_eq_of_le hj with hlt | rfl
      · exact hbefore j (by omega) hj'
      · exact hi

theorem Bitmap.nextBit_first (bit : Bool) (bm : Bitmap) {maxN curr : Int} (h : curr < maxN) :
    curr < nextBit bit bm maxN curr ∧ (∀ j, curr < j → j < nextBit bit bm maxN curr → bm.isSet j ≠ bit) ∧
      (nextBit bit bm maxN curr < maxN → bm.isSet (nextBit bit bm maxN curr) = bit) ∧
      nextBit bit bm maxN curr ≤ maxN := by
  obtain ⟨hlo, hbefore, hfound, hhi⟩ :=
    scan_first bit bm maxN (maxN - (curr + 1)).toNat (curr + 1) (by omega)
  unfold nextBit
  exact ⟨by omega, fun j hj hj' => hbefore j (by omega) hj', hfound, hhi⟩

namespace RmScan

section scan
variable {g : RmFileHandle}

/-- `rid'` is the first record behind `rid`, or the end when there is none. -/
structure NextOf (g : RmFileHandle) (rid rid' : Rid) : Prop where
  stop : isEnd g rid' = true ∨ (g.records rid').isSome
  before : isEnd g rid' = false → rid.Before rid'
  between : ∀ ρ, (g.records ρ).isSome → rid.Before ρ → isEnd g rid' = false ∧ (ρ = rid' ∨ rid'.Before ρ)

theorem inFile_of_records {ρ : Rid} (h : (g.records ρ).isSome) : g.InFile ρ := by
  unfold RmFileHandle.records at h
  split at h
  · next hin => exact hin
  · cases h

theorem records_of_page {p : Int} {image : PageImage} (h : g.pages p = some image) {s : Int} (hin : g.InFile ⟨p, s⟩) :
    (g.records ⟨p, s⟩).isSome = Bitmap.isSet image.bitmap s := by
  simp only [RmFileHandle.records, if_pos hin, h, Option.bind_some]
  split <;> simp_all

theorem fetchPageHandle_of_page {p : Int} {image : PageImage} (h1 : 1 ≤ p) (hlt : p < g.fileHdr.numPages)
    (h : g.pages p = some image) : g.fetchPageHandle p = .ok image := by
  simp [RmFileHandle.fetchPageHandle, RmFileHandle.bpmFetch, h, show ¬(p ≥ g.fileHdr.numPages ∨ p < 0) by omega]

variable (hper : 0 < g.fileHdr.numRecordsPerPage)
  (hpages : ∀ p, 1 ≤ p → p < g.fileHdr.numPages → ∃ image, g.pages p = some image)
include hper hpages

theorem nextFrom_spec : ∀ (k : Nat) (rid : Rid), 1 ≤ rid.pageNo → -1 ≤ rid.slotNo →
    rid.slotNo < g.fileHdr.numRecordsPerPage → (g.fileHdr.numPages - rid.pageNo).toNat = k →
    ∃ rid', nextFrom g k rid = .ok rid' ∧ NextOf g rid rid'
  | 0, rid, h1, hlo, hhi, hk => by
    have hend : rid.pageNo ≥ g.fileHdr.numPages := by omega
    refine ⟨rid, rfl, .inl (by simp [isEnd, hend]), by simp [isEnd, hend], fun ρ hρ hbefore => ?_⟩
    have hin := (inFile_of_records hρ).1
    rcases hbefore with h | h <;> omega
  | k + 1, rid, h1, hlo, hhi, hk => by
    have hlt : rid.pageNo < g.fileHdr.numPages := by omega
    obtain ⟨image, himage⟩ := hpages rid.pageNo h1 hlt
    have hfetch := fetchPageHandle_of_page h1 hlt himage
    obtain ⟨hafter, hnone, hset, hle⟩ := Bitmap.nextBit_first true image.bitmap hhi
    simp only [nextFrom, hfetch, bind, Except.bind]
    generalize Bitmap.nextBit true image.bitmap g.fileHdr.numRecordsPerPage rid.slotNo = slotNo at hafter hnone hset hle
    -- no record of this page lies between the two
    have hpage : ∀ s, rid.slotNo < s → s < slotNo → ¬(g.records ⟨rid.pageNo, s⟩).isSome := by
      intro s hs hs' hrec
      rw [records_of_page himage (inFile_of_records hrec)] at hrec
      exact hnone s hs hs' hrec
    by_cases hfound : slotNo < g.fileHdr.numRecordsPerPage
    · have hin : g.InFile ⟨rid.pageNo, slotNo⟩ := ⟨⟨h1, hlt⟩, by simp only; omega, hfound⟩
      have hnotEnd : isEnd g ⟨rid.pageNo, slotNo⟩ = false := by simp [isEnd, hlt]
      simp only [hfound, if_true]
      refine ⟨⟨rid.pageNo, slotNo⟩, rfl, .inr ?_, fun _ => .inr ⟨rfl, hafter⟩, fun ρ hρ hbefore => ⟨hnotEnd, ?_⟩⟩
      · rw [records_of_page himage hin]
        exact hset hfound
      · rcases hbefore with hp | ⟨hp, hs⟩
        · exact .inr (.inl hp)
        · obtain ⟨p, s⟩ := ρ
          obtain rfl : rid.pageNo = p := hp
          rcases Int.lt_trichotomy s slotNo with h | rfl | h
          · exact absurd hρ (hpage s hs h)
          · exact .inl rfl
          · exact .inr (.inr ⟨rfl, h⟩)
    · simp only [hfound, if_false]
      obtain ⟨rid', heq, hnext⟩ := nextFrom_spec k ⟨rid.pageNo + 1, -1⟩ (by simp only; omega) (Int.le_refl _)
        (by simp only; omega) (by simp only; omega)
      refine ⟨rid', heq, hnext.stop, fun hne => ?_, fun ρ hρ hbefore => hnext.between ρ hρ ?_⟩
      · rcases hnext.before hne with h | ⟨h, -⟩
        · exact .inl (by simp only at h; omega)
        · exact .inl (by simp only at h; omega)
      · rcases hbefore with hp | ⟨hp, hs⟩
        · rcases Int.lt_or_eq_of_le (show rid.pageNo + 1 ≤ ρ.pageNo by omega) with h | h
          · exact .inl h
          · have hslot := (inFile_of_records hρ).2.1
            exact .inr ⟨h, by simp only; omega⟩
        · obtain ⟨p, s⟩ := ρ
          obtain rfl : rid.pageNo = p := hp
          have hslot := (inFile_of_records hρ).2.2
          exact absurd hρ (hpage s hs (by simp only at hslot; omega))

/-- One step of a scan from a record or from before the first. -/
theorem next_spec {rid : Rid} (h1 : 1 ≤ rid.pageNo) (hlo : -1 ≤ rid.slotNo)
    (hhi : rid.slotNo < g.fileHdr.numRecordsPerPage) : ∃ rid', next g rid = .ok rid' ∧ NextOf g rid rid' :=
  nextFrom_spec hper hpages _ rid h1 hlo hhi rfl

omit hpages hper in
theorem Before.trans {a b c : Rid} (h : a.Before b) (h' : b.Before c) : a.Before c := by
  unfold Rid.Before at *
  omega

/-- The slots from `rid` to the end of the file, which bound the rounds of a scan. -/
def slotsLeft (g : RmFileHandle) (rid : Rid) : Nat :=
  (g.fileHdr.numPages * g.fileHdr.numRecordsPerPage - (rid.pageNo * g.fileHdr.numRecordsPerPage + rid.slotNo)).toNat

omit hpages in
theorem slotsLeft_lt {rid rid' : Rid} (h : rid.Before rid') (hin : g.InFile rid) (hin' : g.InFile rid') :
    slotsLeft g rid' < slotsLeft g rid := by
  obtain ⟨⟨h1, hlt⟩, h0, hs⟩ := hin
  obtain ⟨⟨h1', hlt'⟩, h0', hs'⟩ := hin'
  have hfile := Int.mul_le_mul_of_nonneg_right (show rid'.pageNo + 1 ≤ g.fileHdr.numPages by omega)
    (show 0 ≤ g.fileHdr.numRecordsPerPage by omega)
  rw [Int.add_mul, Int.one_mul] at hfile
  unfold slotsLeft
  rcases h with hp | ⟨hp, hss⟩
  · have hmul := Int.mul_le_mul_of_nonneg_right (show rid.pageNo + 1 ≤ rid'.pageNo by omega)
      (show 0 ≤ g.fileHdr.numRecordsPerPage by omega)
    rw [Int.add_mul, Int.one_mul] at hmul
    omega
  · rw [hp]
    omega

/-- From a record on a scan visits the records that are left, in order. -/
theorem visit_spec (n : Nat) : ∀ {rid : Rid}, (g.records rid).isSome → slotsLeft g rid = n →
    ∃ rids, (∀ fuel, n + 2 ≤ fuel → visit g fuel rid = .ok (rid :: rids)) ∧ (rid :: rids).Pairwise Rid.Before ∧
      ∀ ρ, ρ ∈ rids ↔ (g.records ρ).isSome ∧ rid.Before ρ := by
  induction n using Nat.strongRecOn with
  | ind n ih =>
    intro rid hrec hn
    obtain ⟨⟨h1, hlt⟩, h0, hs⟩ := inFile_of_records hrec
    have hnotEnd : isEnd g rid = false := by simp [isEnd, hlt]
    obtain ⟨rid', hnext, hof⟩ := next_spec hper hpages h1 (show -1 ≤ rid.slotNo by omega) hs
    cases hend : isEnd g rid' with
    | true =>
      refine ⟨[], fun fuel hfuel => ?_, by simp, fun ρ => ?_⟩
      · obtain ⟨k, rfl⟩ : ∃ k, fuel = k + 2 := ⟨fuel - 2, by omega⟩
        simp [visit, hnotEnd, hnext, bind, Except.bind, hend, pure, Except.pure]
      · simp only [List.not_mem_nil, false_iff]
        rintro ⟨hρ, hbefore⟩
        have := (hof.between ρ hρ hbefore).1
        rw [hend] at this
        cases this
    | false =>
      have hrec' : (g.records rid').isSome := by
        rcases hof.stop with h | h
        · rw [hend] at h
          cases h
        · exact h
      have hbefore := hof.before hend
      have hleft := slotsLeft_lt hper hbefore (inFile_of_records hrec) (inFile_of_records hrec')
      obtain ⟨rids, hvisit, hsorted, hmem⟩ := ih _ (hn ▸ hleft) hrec' rfl
      refine ⟨rid' :: rids, fun fuel hfuel => ?_, List.pairwise_cons.2 ⟨fun ρ hρ => ?_, hsorted⟩, fun ρ => ?_⟩
      · obtain ⟨k, rfl⟩ : ∃ k, fuel = k + 1 := ⟨fuel - 1, by omega⟩
        simp [visit, hnotEnd, hnext, bind, Except.bind, hvisit k (by omega), pure, Except.pure]
      · rcases List.mem_cons.1 hρ with rfl | hρ
        · exact hbefore
        · exact Before.trans hbefore ((hmem ρ).1 hρ).2
      · rw [List.mem_cons, hmem]
        constructor
        · rintro (rfl | ⟨hρ, hb⟩)
          · exact ⟨hrec', hbefore⟩
          · exact ⟨hρ, Before.trans hbefore hb⟩
        · rintro ⟨hρ, hb⟩
          exact (hof.between ρ hρ hb).2.imp_right fun h => ⟨hρ, h⟩

/-- A scan visits exactly the records of the file, each once and in order. -/
theorem scan_spec : ∃ rids n, (∀ fuel, n ≤ fuel → scan g fuel = .ok rids) ∧
    rids.Pairwise Rid.Before ∧ ∀ ρ, ρ ∈ rids ↔ (g.records ρ).isSome := by
  obtain ⟨rid, hstart, hof⟩ : ∃ rid, next g ⟨rmFirstRecordPage, -1⟩ = .ok rid ∧
      NextOf g ⟨rmFirstRecordPage, -1⟩ rid :=
    next_spec hper hpages (Int.le_refl 1) (Int.le_refl _) (by simp only; omega)
  have hfirst : ∀ ρ, (g.records ρ).isSome → Rid.Before ⟨rmFirstRecordPage, -1⟩ ρ := by
    intro ρ hρ
    obtain ⟨⟨h1, -⟩, h0, -⟩ := inFile_of_records hρ
    rcases Int.lt_or_eq_of_le h1 with h | h
    · exact .inl h
    · exact .inr ⟨h, by simp only; omega⟩
  cases hend : isEnd g rid with
  | true =>
    refine ⟨[], 0, fun fuel _ => ?_, List.Pairwise.nil, fun ρ => ?_⟩
    · unfold scan start
      rw [hstart]
      cases fuel <;> simp [bind, Except.bind, visit, hend]
    · simp only [List.not_mem_nil, false_iff]
      intro hρ
      have := (hof.between ρ hρ (hfirst ρ hρ)).1
      rw [hend] at this
      cases this
  | false =>
    have hrec : (g.records rid).isSome := by
      rcases hof.stop with h | h
      · rw [hend] at h
        cases h
      · exact h
    obtain ⟨rids, hvisit, hsorted, hmem⟩ := visit_spec hper hpages _ hrec rfl
    refine ⟨rid :: rids, slotsLeft g rid + 2, fun fuel hfuel => ?_, hsorted, fun ρ => ?_⟩
    · unfold scan start
      rw [hstart]
      exact hvisit fuel hfuel
    · rw [List.mem_cons, hmem]
      constructor
      · rintro (rfl | ⟨hρ, -⟩)
        · exact hrec
        · exact hρ
      · intro hρ
        exact (hof.between ρ hρ (hfirst ρ hρ)).2.imp_right fun h => ⟨hρ, h⟩

end scan

end RmScan

/-! ## Calls -/

/-- The calls on a heap file; `reopen` closes and opens it. -/
inductive FileCall
  | insert (buf : Bytes) (ctx : Option Context)
  | update (rid : Rid) (buf : Bytes) (ctx : Option Context)
  | delete (rid : Rid) (ctx : Option Context)
  | reopen

/-- The buffers hold a record, and the rids name slots, of pages that need not be there. -/
def FileCall.Valid (hdr : RmFileHdr) : FileCall → Prop
  | .insert buf _ => hdr.recordSize.toNat ≤ buf.length
  | .update rid buf _ => hdr.recordSize.toNat ≤ buf.length ∧ 1 ≤ rid.pageNo ∧ 0 ≤ rid.slotNo ∧
      rid.slotNo < hdr.numRecordsPerPage
  | .delete rid _ => 1 ≤ rid.pageNo ∧ 0 ≤ rid.slotNo ∧ rid.slotNo < hdr.numRecordsPerPage
  | .reopen => True

instance (hdr : RmFileHdr) : (c : FileCall) → Decidable (c.Valid hdr)
  | .insert buf _ => inferInstanceAs (Decidable (hdr.recordSize.toNat ≤ buf.length))
  | .update rid buf _ => inferInstanceAs (Decidable (hdr.recordSize.toNat ≤ buf.length ∧ 1 ≤ rid.pageNo ∧
      0 ≤ rid.slotNo ∧ rid.slotNo < hdr.numRecordsPerPage))
  | .delete rid _ =>
    inferInstanceAs (Decidable (1 ≤ rid.pageNo ∧ 0 ≤ rid.slotNo ∧ rid.slotNo < hdr.numRecordsPerPage))
  | .reopen => .isTrue trivial

/-- The sizes of the file do not change. -/
structure SameSizes (hdr hdr' : RmFileHdr) : Prop where
  recordSize : hdr'.recordSize = hdr.recordSize
  perPage : hdr'.numRecordsPerPage = hdr.numRecordsPerPage
  bitmapSize : hdr'.bitmapSize = hdr.bitmapSize

theorem FileCall.Valid.congr {hdr hdr' : RmFileHdr} {c : FileCall} (h : c.Valid hdr) (hs : SameSizes hdr hdr') :
    c.Valid hdr' := by
  cases c with
  | reopen => trivial
  | _ => simpa only [FileCall.Valid, hs.recordSize, hs.perPage] using h

namespace RmFileHandle

/-- The file after a call; a call that raises an error leaves it as it was. -/
def call (g : RmFileHandle) : FileCall → RmFileHandle
  | .insert buf ctx => ((g.insertRecord buf ctx).map (·.2.1)).toOption.getD g
  | .update rid buf ctx => ((g.updateRecord rid buf ctx).map (·.1)).toOption.getD g
  | .delete rid ctx => ((g.deleteRecord rid ctx).map (·.1)).toOption.getD g
  | .reopen => g.reopen

/-- What a call does to the map: an insertion adds the rid that it returns, an update changes a record that is there. -/
def effect (g : RmFileHandle) (m : Rid → Option Bytes) : FileCall → Rid → Option Bytes
  | .insert buf ctx =>
    match g.insertRecord buf ctx with
    | .ok (rid, _) => Function.update m rid (some (memcpy buf g.fileHdr.recordSize))
    | .error _ => m
  | .update rid buf _ =>
    if (m rid).isSome then Function.update m rid (some (memcpy buf g.fileHdr.recordSize)) else m
  | .delete rid _ => Function.update m rid none
  | .reopen => m

/-- File and map after a list of calls. -/
def run : List FileCall → RmFileHandle → (Rid → Option Bytes) → RmFileHandle × (Rid → Option Bytes)
  | [], g, m => (g, m)
  | c :: cs, g, m => run cs (g.call c) (g.effect m c)

/-- What the file answers about its records is what the map says. -/
structure RecordMap (g : RmFileHandle) (m : Rid → Option Bytes) : Prop where
  domain : ∀ rid, (m rid).isSome → g.InFile rid
  getRecord : ∀ rid, g.InFile rid → g.getRecord rid =
    match m rid with
    | some b => .ok b
    | none => .error (.recordNotFound rid.pageNo rid.slotNo)
  isRecord : ∀ rid, g.InFile rid → g.isRecord rid = .ok (m rid).isSome
  insert : ∀ buf ctx, g.fileHdr.recordSize.toNat ≤ buf.length → ∃ rid g' ctx',
    g.insertRecord buf ctx = .ok (rid, g', ctx') ∧ m rid = none
  update : ∀ rid buf ctx, g.InFile rid → g.fileHdr.recordSize.toNat ≤ buf.length →
    (g.updateRecord rid buf ctx = .error (.recordNotFound rid.pageNo rid.slotNo) ↔ m rid = none) ∧
      (m rid ≠ none → ∃ g' ctx', g.updateRecord rid buf ctx = .ok (g', ctx'))
  delete : ∀ rid ctx, g.InFile rid →
    (g.deleteRecord rid ctx = .error (.recordNotFound rid.pageNo rid.slotNo) ↔ m rid = none) ∧
      (m rid ≠ none → ∃ g' ctx', g.deleteRecord rid ctx = .ok (g', ctx'))
  scan : ∃ rids n, (∀ fuel, n ≤ fuel → RmScan.scan g fuel = .ok rids) ∧ rids.Pairwise Rid.Before ∧
    ∀ rid, rid ∈ rids ↔ (m rid).isSome

/-- The state of a file between two calls. -/
structure Sound (g : RmFileHandle) (m : Rid → Option Bytes) : Prop where
  layout : Layout g.fileHdr
  inv : ∃ ps, g.file.HeapInv ps
  records : g.records = m

variable {g g' : RmFileHandle} {m : Rid → Option Bytes}

/-- The records of a file of images are those of the file that it stands for. -/
theorem records_eq_view (hl : Layout g.fileHdr) : g.records = g.file.view := by
  funext rid
  unfold records RmFile.view RmFile.recordAt InFile
  by_cases hpage : 1 ≤ rid.pageNo ∧ rid.pageNo < g.fileHdr.numPages
  · by_cases hslot : 0 ≤ rid.slotNo ∧ rid.slotNo < g.fileHdr.numRecordsPerPage
    · simp only [file_fileHdr, file_pages, hpage, hslot, and_self, if_true]
      cases g.pages rid.pageNo with
      | none => rfl
      | some image =>
        simp only [Option.bind_some, Option.map_some, RmPage.record, PageImage.page_isSet hl image hslot.1 hslot.2,
          PageImage.page_slots image hslot.1 hslot.2]
    · simp [hslot]
  · simp [hpage]

theorem view_of_wrote {f f' : RmFile} {rid : Rid} {lsn : Int} {r : Option Bytes} (h : f.Wrote f' rid lsn r)
    (hslot : 0 ≤ rid.slotNo ∧ rid.slotNo < f.fileHdr.numRecordsPerPage) :
    f'.view = Function.update f.view rid r := by
  funext ρ
  unfold RmFile.view
  rw [h.perPage, h.recordAt]
  by_cases hρ : ρ = rid
  · subst hρ
    simp [hslot]
  · simp [hρ]

theorem insertRecord_sizes {buf : Bytes} {ctx ctx' : Option Context} {rid : Rid}
    (h : g.insertRecord buf ctx = .ok (rid, g', ctx')) : SameSizes g.fileHdr g'.fileHdr := by
  cases hcreate : g.createPageHandle with
  | error e => simp [insertRecord, hcreate, bind, Except.bind] at h
  | ok r =>
    obtain ⟨pageNo, image, g₁⟩ := r
    obtain ⟨-, hsize, hper, hbits⟩ := createPageHandle_layout hcreate
    rw [insertRecord_eq buf ctx hcreate] at h
    obtain ⟨-, hrest⟩ := Prod.mk.inj (Except.ok.inj h)
    obtain ⟨rfl, -⟩ := Prod.mk.inj hrest
    split <;> exact ⟨hsize, hper, hbits⟩

theorem deleteRecord_sizes {ctx ctx' : Option Context} {rid : Rid}
    (h : g.deleteRecord rid ctx = .ok (g', ctx')) : SameSizes g.fileHdr g'.fileHdr := by
  cases hfetch : g.fetchPageHandle rid.pageNo with
  | error e => simp [deleteRecord, hfetch, bind, Except.bind] at h
  | ok image =>
    cases hbit : Bitmap.isSet image.bitmap rid.slotNo with
    | true =>
      rw [deleteRecord_eq ctx hfetch hbit] at h
      obtain ⟨rfl, -⟩ := Prod.mk.inj (Except.ok.inj h)
      split <;> exact ⟨rfl, rfl, rfl⟩
    | false => simp [deleteRecord, hfetch, bind, Except.bind, hbit, throw, throwThe, MonadExceptOf.throw] at h

theorem updateRecord_sizes {buf : Bytes} {ctx ctx' : Option Context} {rid : Rid}
    (h : g.updateRecord rid buf ctx = .ok (g', ctx')) : SameSizes g.fileHdr g'.fileHdr := by
  cases hfetch : g.fetchPageHandle rid.pageNo with
  | error e => simp [updateRecord, hfetch, bind, Except.bind] at h
  | ok image =>
    cases hbit : Bitmap.isSet image.bitmap rid.slotNo with
    | true =>
      rw [updateRecord_eq buf ctx hfetch hbit] at h
      obtain ⟨rfl, -⟩ := Prod.mk.inj (Except.ok.inj h)
      exact ⟨rfl, rfl, rfl⟩
    | false => simp [updateRecord, hfetch, bind, Except.bind, hbit, throw, throwThe, MonadExceptOf.throw] at h

namespace Sound

variable (h : Sound g m)
include h

theorem page {p : Int} (h1 : 1 ≤ p) (hlt : p < g.fileHdr.numPages) : ∃ image, g.pages p = some image := by
  obtain ⟨ps, hinv⟩ := h.inv
  obtain ⟨page, hpage⟩ := hinv.page p h1 hlt
  obtain ⟨image, himage, -⟩ := Option.map_eq_some_iff.1 hpage
  exact ⟨image, himage⟩

/-- A slot of the file lies in a page whose bit says whether the map has a record there. -/
theorem fetch {rid : Rid} (hin : g.InFile rid) : ∃ image, g.fetchPageHandle rid.pageNo = .ok image ∧
    m rid = if Bitmap.isSet image.bitmap rid.slotNo then some (image.getSlot g.fileHdr rid.slotNo) else none := by
  obtain ⟨image, himage⟩ := h.page hin.1.1 hin.1.2
  refine ⟨image, RmScan.fetchPageHandle_of_page hin.1.1 hin.1.2 himage, ?_⟩
  rw [← h.records, RmFileHandle.records, if_pos hin, himage]
  rfl

theorem recordMap : RecordMap g m where
  domain rid hrid := by
    rw [← h.records] at hrid
    exact RmScan.inFile_of_records hrid
  getRecord rid hin := by
    obtain ⟨image, hfetch, hm⟩ := h.fetch hin
    rw [hm]
    simp only [RmFileHandle.getRecord, hfetch, bind, Except.bind]
    split <;> rfl
  isRecord rid hin := by
    obtain ⟨image, hfetch, hm⟩ := h.fetch hin
    rw [hm, RmFileHandle.isRecord, hfetch]
    cases hbit : Bitmap.isSet image.bitmap rid.slotNo <;> simp [Except.map, hbit]
  insert buf ctx hbuf := by
    obtain ⟨ps, hinv⟩ := h.inv
    obtain ⟨rid, f', ps', hins, -⟩ := hinv.insertRecord buf ctx
    obtain ⟨g', heq, -⟩ := file_insertRecord h.layout hbuf hins.slot hins.eq
    refine ⟨rid, g', _, heq, ?_⟩
    rw [← h.records, records_eq_view h.layout, RmFile.view, if_pos hins.slot]
    exact hins.empty
  update rid buf ctx hin hbuf := by
    obtain ⟨image, hfetch, hm⟩ := h.fetch hin
    cases hbit : Bitmap.isSet image.bitmap rid.slotNo with
    | true => simp [hm, hbit, updateRecord_eq buf ctx hfetch hbit]
    | false => simp [hm, hbit, updateRecord, hfetch, bind, Except.bind, throw, throwThe, MonadExceptOf.throw]
  delete rid ctx hin := by
    obtain ⟨image, hfetch, hm⟩ := h.fetch hin
    cases hbit : Bitmap.isSet image.bitmap rid.slotNo with
    | true => simp [hm, hbit, deleteRecord_eq ctx hfetch hbit]
    | false => simp [hm, hbit, deleteRecord, hfetch, bind, Except.bind, throw, throwThe, MonadExceptOf.throw]
  scan := by
    obtain ⟨rids, n, hscan, hsorted, hmem⟩ := RmScan.scan_spec h.layout.perPage fun p h1 hlt => h.page h1 hlt
    exact ⟨rids, n, hscan, hsorted, by rw [← h.records]; exact hmem⟩

/-- A write that `FileHandle` describes keeps the invariant. -/
theorem wrote {rid : Rid} {lsn : Int} {r : Option Bytes} (hw : g.file.Wrote g'.file rid lsn r)
    (hslot : 0 ≤ rid.slotNo ∧ rid.slotNo < g.fileHdr.numRecordsPerPage) (hsizes : SameSizes g.fileHdr g'.fileHdr)
    {ps : List Int} (hinv : g'.file.HeapInv ps) : Sound g' (Function.update m rid r) := by
  have hl : Layout g'.fileHdr := h.layout.congr hsizes.recordSize hsizes.perPage hsizes.bitmapSize
  refine ⟨hl, ⟨ps, hinv⟩, ?_⟩
  rw [records_eq_view hl, view_of_wrote hw hslot, ← records_eq_view h.layout, h.records]

theorem delete {rid : Rid} {ctx : Option Context} (h1 : 1 ≤ rid.pageNo)
    (hslot : 0 ≤ rid.slotNo ∧ rid.slotNo < g.fileHdr.numRecordsPerPage) :
    Sound (g.call (.delete rid ctx)) (g.effect m (.delete rid ctx)) ∧
      SameSizes g.fileHdr (g.call (.delete rid ctx)).fileHdr := by
  have hfile := file_deleteRecord h.layout hslot ctx
  cases hok : g.deleteRecord rid ctx with
  | error e =>
    have hcall : g.call (.delete rid ctx) = g := by simp [call, hok, Except.map, Except.toOption]
    have hnone : Function.update m rid none = m := by
      rw [Function.update_eq_self_iff]
      by_contra hne
      have hin := h.recordMap.domain rid (Option.isSome_iff_ne_none.2 (Ne.symm hne))
      obtain ⟨g', ctx', hdel⟩ := (h.recordMap.delete rid ctx hin).2 (Ne.symm hne)
      rw [hok] at hdel
      cases hdel
    rw [hcall]
    exact ⟨by simpa only [effect, hnone] using h, rfl, rfl, rfl⟩
  | ok r =>
    obtain ⟨g', ctx'⟩ := r
    have hcall : g.call (.delete rid ctx) = g' := by simp [call, hok, Except.map, Except.toOption]
    rw [hok] at hfile
    obtain ⟨page, hfetch, hset⟩ := RmFile.deleteRecord_ok hfile
    obtain ⟨f', heq, hw⟩ := RmFile.deleteRecord_wrote rid h1 hfetch ctx hset
    rw [hfile] at heq
    obtain ⟨rfl, -⟩ := Prod.mk.inj (Except.ok.inj heq)
    obtain ⟨ps, hinv⟩ := h.inv
    obtain ⟨ps', hinv'⟩ := hinv.deleteRecord h1 hslot hfile
    have hsizes := deleteRecord_sizes hok
    rw [hcall]
    exact ⟨h.wrote hw hslot hsizes hinv', hsizes⟩

theorem insert {buf : Bytes} {ctx : Option Context} (hbuf : g.fileHdr.recordSize.toNat ≤ buf.length) :
    Sound (g.call (.insert buf ctx)) (g.effect m (.insert buf ctx)) ∧
      SameSizes g.fileHdr (g.call (.insert buf ctx)).fileHdr := by
  obtain ⟨ps, hinv⟩ := h.inv
  obtain ⟨rid, f', ps', hins, hinv'⟩ := hinv.insertRecord buf ctx
  obtain ⟨g', heq, rfl⟩ := file_insertRecord h.layout hbuf hins.slot hins.eq
  obtain ⟨lsn, hw, -⟩ := hins.wrote
  have hcall : g.call (.insert buf ctx) = g' := by simp [call, heq, Except.map, Except.toOption]
  have heffect : g.effect m (.insert buf ctx) = Function.update m rid (some (memcpy buf g.fileHdr.recordSize)) := by
    simp only [effect, heq]
  have hsizes := insertRecord_sizes heq
  rw [hcall, heffect]
  exact ⟨h.wrote hw hins.slot hsizes hinv', hsizes⟩

theorem update {rid : Rid} {buf : Bytes} {ctx : Option Context} (hbuf : g.fileHdr.recordSize.toNat ≤ buf.length)
    (h1 : 1 ≤ rid.pageNo) (hslot : 0 ≤ rid.slotNo ∧ rid.slotNo < g.fileHdr.numRecordsPerPage) :
    Sound (g.call (.update rid buf ctx)) (g.effect m (.update rid buf ctx)) ∧
      SameSizes g.fileHdr (g.call (.update rid buf ctx)).fileHdr := by
  have hfile := file_updateRecord h.layout hslot hbuf ctx
  cases hok : g.updateRecord rid buf ctx with
  | error e =>
    have hcall : g.call (.update rid buf ctx) = g := by simp [call, hok, Except.map, Except.toOption]
    have hnone : m rid = none := by
      by_contra hne
      have hin := h.recordMap.domain rid (Option.isSome_iff_ne_none.2 hne)
      obtain ⟨g', ctx', hupd⟩ := (h.recordMap.update rid buf ctx hin hbuf).2 hne
      rw [hok] at hupd
      cases hupd
    rw [hcall]
    exact ⟨by simpa [effect, hnone] using h, rfl, rfl, rfl⟩
  | ok r =>
    obtain ⟨g', ctx'⟩ := r
    have hcall : g.call (.update rid buf ctx) = g' := by simp [call, hok, Except.map, Except.toOption]
    rw [hok] at hfile
    obtain ⟨page, hfetch, hset⟩ := RmFile.updateRecord_ok hfile
    obtain ⟨f', heq, hw⟩ := RmFile.updateRecord_wrote rid h1 hfetch buf ctx hset
    rw [hfile] at heq
    obtain ⟨rfl, -⟩ := Prod.mk.inj (Except.ok.inj heq)
    obtain ⟨ps, hinv⟩ := h.inv
    have hsizes := updateRecord_sizes hok
    have hsome : (m rid).isSome := by
      have hin := (RmFile.fetchPageHandle_eq_ok.1 hfetch).2.1
      have hrec := RmFile.recordAt_of_fetch rid h1 hfetch rid.slotNo
      rw [← h.records, records_eq_view h.layout, RmFile.view, file_fileHdr, if_pos hslot, hrec, RmPage.record,
        if_pos hset]
      rfl
    rw [hcall, show g.effect m (.update rid buf ctx) = _ from if_pos hsome]
    exact ⟨h.wrote hw hslot hsizes (hinv.updateRecord h1 hfile), hsizes⟩

/-- The descriptor of an open file allocates at `num_pages` already. -/
theorem reopen : Sound g.reopen m := by
  obtain ⟨ps, hinv⟩ := h.inv
  have halloc : g.fd2pageno = g.fileHdr.numPages := hinv.alloc
  have hsame : g.reopen = g := by
    unfold RmFileHandle.reopen
    rw [← halloc]
  exact hsame ▸ h

/-- One call keeps file and map together. -/
theorem call {c : FileCall} (hc : c.Valid g.fileHdr) :
    Sound (g.call c) (g.effect m c) ∧ SameSizes g.fileHdr (g.call c).fileHdr := by
  cases c with
  | insert buf ctx => exact h.insert hc
  | update rid buf ctx => exact h.update hc.1 hc.2.1 hc.2.2
  | delete rid ctx => exact h.delete hc.1 hc.2
  | reopen => exact ⟨h.reopen, rfl, rfl, rfl⟩

end Sound

theorem Sound.run : ∀ {cs : List FileCall} {g : RmFileHandle} {m : Rid → Option Bytes}, Sound g m →
    (∀ c ∈ cs, c.Valid g.fileHdr) → Sound (run cs g m).1 (run cs g m).2
  | [], _, _, h, _ => h
  | c :: cs, g, m, h, hcs => by
    obtain ⟨hstep, hsizes⟩ := h.call (hcs c List.mem_cons_self)
    have hrest : ∀ c' ∈ cs, c'.Valid (g.call c).fileHdr :=
      fun c' hc' => (hcs c' (List.mem_cons_of_mem c hc')).congr hsizes
    change Sound (RmFileHandle.run cs (g.call c) (g.effect m c)).1 _
    exact Sound.run hstep hrest

/-! ## Where runs start -/

/-- An open file and its records: a new one, or one whose free-page chain `undo` has rebuilt. -/
inductive Opened : RmFileHandle → (Rid → Option Bytes) → Prop
  | new {tabName : TabName} {recordSize : Int} {g : RmFileHandle} (h : create tabName recordSize = .ok g) :
      Opened g fun _ => none
  | rebuilt {recordSize : Int} {g₀ g : RmFileHandle} (h1 : 1 ≤ recordSize) (hle : recordSize ≤ rmMaxRecordSize)
      (hsizes : SameSizes (RmFileHdr.create recordSize) g₀.fileHdr) (hnp : 1 ≤ g₀.fileHdr.numPages)
      (hpages : ∀ p, 1 ≤ p → p < g₀.fileHdr.numPages → ∃ image, g₀.pages p = some image)
      (h : g₀.rebuildFreeList = .ok g) : Opened g g₀.records

theorem Opened.sound {g : RmFileHandle} {m : Rid → Option Bytes} (h : Opened g m) : Sound g m := by
  cases h with
  | @new tabName recordSize g h =>
    unfold create at h
    split at h
    · cases h
    · next hsize =>
      cases h
      have h1 : 1 ≤ recordSize := by omega
      have hle : recordSize ≤ rmMaxRecordSize := by omega
      have hl := Layout.create h1 hle
      obtain ⟨hinv, -⟩ := RmFile.newFile_good tabName h1 hle
      refine ⟨hl, hinv, ?_⟩
      rw [records_eq_view hl]
      exact funext (RmFile.newFile_view tabName recordSize)
  | @rebuilt recordSize g₀ g h1 hle hsizes hnp hpages h =>
    have hl := (Layout.create h1 hle).congr hsizes.recordSize hsizes.perPage hsizes.bitmapSize
    have hpresent : g₀.file.Present := by
      refine ⟨hl.perPage, hnp, fun p hp hlt => ?_⟩
      obtain ⟨image, himage⟩ := hpages p hp hlt
      exact ⟨image.page g₀.fileHdr, by rw [file_pages, himage]; rfl⟩
    obtain ⟨f', ps, heq, hinv, -, hsame⟩ := RmFile.rebuildFreeList_spec hpresent
    rw [file_rebuildFreeList hl, h] at heq
    obtain rfl := Except.ok.inj heq
    have hl' := rebuildFreeList_layout hl h
    refine ⟨hl', ⟨ps, hinv⟩, ?_⟩
    rw [records_eq_view hl', records_eq_view hl]
    funext rid
    unfold RmFile.view
    rw [hsame.perPage, hsame.recordAt]

/-- A file for records of 512 bytes. -/
def emptyFile : RmFileHandle where
  tabName := "t"
  fileHdr := RmFileHdr.create 512
  pages _ := none
  fd2pageno := 1

/-- Two insertions, a deletion and an update with the file closed in between. -/
def demoCalls : List FileCall :=
  [.insert (List.replicate 512 1) none, .insert (List.replicate 512 2) none, .delete ⟨1, 0⟩ none, .reopen,
    .update ⟨2, 0⟩ (List.replicate 512 3) none]

example : (run demoCalls emptyFile fun _ => none).2 ⟨2, 0⟩ = some (List.replicate 512 3) := by decide +kernel

end RmFileHandle

end Rmdb
