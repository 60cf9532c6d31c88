import Rmdb.Record.HeapMap
import Rmdb.Record.RecordMap

/-!
# The order of a scan

- `RmFile.rids`: the records of a file in the order of their slots;
- `RmFile.NextOf`: where a step of `RmScan::next` leads, with one lemma for each way its loop goes on;
- `NextOf.of_split`: a step leads from a record to the next one of `rids`.
-/

namespace Rmdb

namespace RmFile

variable (f : RmFile)

/-- The records of a page. -/
def pageRids (p : Nat) : List Rid :=
  ((List.range f.fileHdr.numRecordsPerPage.toNat).map fun s : Nat => (⟨(p : Int), (s : Int)⟩ : Rid)).filter fun rid =>
    (f.view rid).isSome

/-- The records of the file, page by page. -/
def rids : List Rid := (List.range f.fileHdr.numPages.toNat).flatMap f.pageRids

/-- `rid'` is the first record behind `rid`, or the end when there is none. -/
structure NextOf (rid rid' : Rid) : Prop where
  stop : f.fileHdr.numPages ≤ rid'.pageNo ∨ (f.view rid').isSome
  before : rid'.pageNo < f.fileHdr.numPages → rid.Before rid'
  between : ∀ ρ, (f.view ρ).isSome → rid.Before ρ → rid'.pageNo < f.fileHdr.numPages ∧ (ρ = rid' ∨ rid'.Before ρ)

variable {f} {rid rid' ρ : Rid} {page : RmPage}

theorem inSlots_of_view (h : (f.view ρ).isSome) : f.InSlots ρ ∧ ρ.pageNo < f.fileHdr.numPages := by
  obtain ⟨b, hb⟩ := Option.isSome_iff_exists.1 h
  exact ⟨(page_of_view hb).1, (page_of_view hb).2.1⟩

theorem mem_rids : ρ ∈ f.rids ↔ (f.view ρ).isSome := by
  simp only [rids, pageRids, List.mem_flatMap, List.mem_range, List.mem_filter, List.mem_map]
  constructor
  · rintro ⟨p, -, -, hrec⟩
    exact hrec
  · intro hrec
    obtain ⟨⟨h1, h0, hs⟩, hp⟩ := inSlots_of_view hrec
    refine ⟨ρ.pageNo.toNat, by omega, ⟨ρ.slotNo.toNat, by omega, ?_⟩, hrec⟩
    rw [Int.toNat_of_nonneg (by omega), Int.toNat_of_nonneg h0]

theorem pairwise_rids : f.rids.Pairwise Rid.Before := by
  rw [rids, List.pairwise_flatMap]
  constructor
  · intro p _
    refine List.Pairwise.filter _ ?_
    rw [List.pairwise_map]
    exact List.pairwise_lt_range.imp fun h => .inr ⟨rfl, Int.ofNat_lt.2 h⟩
  · refine List.pairwise_lt_range.imp fun {p q} hpq a ha b hb => .inl ?_
    simp only [pageRids, List.mem_filter, List.mem_map] at ha hb
    obtain ⟨⟨s, -, rfl⟩, -⟩ := ha
    obtain ⟨⟨s', -, rfl⟩, -⟩ := hb
    exact Int.ofNat_lt.2 hpq

theorem nodup_rids : f.rids.Nodup := by
  refine pairwise_rids.imp fun {a b} h => ?_
  rintro rfl
  unfold Rid.Before at h
  omega

/-! ## Steps -/

/-- Behind the last page. -/
theorem NextOf.at_end (h : f.fileHdr.numPages ≤ rid.pageNo) : f.NextOf rid rid := by
  refine ⟨.inl h, fun hlt => absurd hlt (Int.not_lt.2 h), fun ρ hρ hb => ?_⟩
  have hp := (inSlots_of_view hρ).2
  unfold Rid.Before at hb
  omega

section page
variable (h1 : 1 ≤ rid.pageNo) (hfetch : f.fetchPageHandle rid.pageNo = .ok page)
include h1 hfetch

/-- The bits of a page are its records. -/
theorem isSome_view_of_fetch {s : Int} (hs : 0 ≤ s) (hs' : s < f.fileHdr.numRecordsPerPage) :
    (f.view ⟨rid.pageNo, s⟩).isSome = page.bitmap.isSet s := by
  have hin : f.InSlots ⟨rid.pageNo, s⟩ := ⟨h1, hs, hs'⟩
  rw [view_of_inSlots hin, recordAt_of_fetch ⟨rid.pageNo, s⟩ h1 hfetch s, RmPage.record]
  split <;> simp_all

variable (hlt : rid.slotNo < f.fileHdr.numRecordsPerPage)
include hlt

/-- A record is found on the page. -/
theorem NextOf.found (h0 : -1 ≤ rid.slotNo) (hslot : page.bitmap.nextBit true f.fileHdr.numRecordsPerPage rid.slotNo <
    f.fileHdr.numRecordsPerPage) :
    f.NextOf rid ⟨rid.pageNo, page.bitmap.nextBit true f.fileHdr.numRecordsPerPage rid.slotNo⟩ := by
  obtain ⟨hafter, hnone, hset, -⟩ := Bitmap.nextBit_first true page.bitmap hlt
  have hpage := (fetchPageHandle_eq_ok.1 hfetch).2.1
  refine ⟨.inr ?_, fun _ => .inr ⟨rfl, hafter⟩, fun ρ hρ hb => ⟨hpage, ?_⟩⟩
  · rw [isSome_view_of_fetch h1 hfetch (by omega) hslot]
    exact hset hslot
  · obtain ⟨p, s⟩ := ρ
    rcases hb with hp | ⟨hp, hs⟩
    · exact .inr (.inl hp)
    · obtain rfl : rid.pageNo = p := hp
      rcases Int.lt_trichotomy s (page.bitmap.nextBit true f.fileHdr.numRecordsPerPage rid.slotNo) with h | h | h
      · have hin := (inSlots_of_view hρ).1
        rw [isSome_view_of_fetch h1 hfetch hin.2.1 hin.2.2] at hρ
        exact absurd hρ (hnone s hs h)
      · exact .inl (by rw [h])
      · exact .inr (.inr ⟨rfl, h⟩)

/-- There is none, and the scan goes on with the next page. -/
theorem NextOf.skip (hslot : ¬page.bitmap.nextBit true f.fileHdr.numRecordsPerPage rid.slotNo <
    f.fileHdr.numRecordsPerPage) (h : f.NextOf ⟨rid.pageNo + 1, -1⟩ rid') : f.NextOf rid rid' := by
  obtain ⟨-, hnone, -, -⟩ := Bitmap.nextBit_first true page.bitmap hlt
  refine ⟨h.stop, fun hp => ?_, fun ρ hρ hb => h.between ρ hρ ?_⟩
  · rcases h.before hp with hp | ⟨hp, -⟩ <;> exact .inl (by dsimp only at hp; omega)
  · obtain ⟨p, s⟩ := ρ
    have hin := (inSlots_of_view hρ).1
    rcases hb with hp | ⟨hp, hs⟩
    · rcases Int.lt_or_eq_of_le (show rid.pageNo + 1 ≤ p from hp) with h' | h'
      · exact .inl h'
      · exact .inr ⟨h', by have := hin.2.1; dsimp only at this ⊢; omega⟩
    · obtain rfl : rid.pageNo = p := hp
      rw [isSome_view_of_fetch h1 hfetch hin.2.1 hin.2.2] at hρ
      have hlast := hin.2.2
      exact absurd hρ (hnone s hs (by dsimp only at hlast; omega))

end page

/-! ## Steps along the records -/

theorem not_before_of_before {a b : Rid} (h : a.Before b) : a ≠ b ∧ ¬b.Before a := by
  unfold Rid.Before at h ⊢
  constructor
  · rintro rfl
    omega
  · omega

/-- What is behind a position is a tail of the records. -/
theorem NextOf.of_tail {L : List Rid} (h : f.NextOf rid rid') (hs : L.Pairwise Rid.Before)
    (hL : ∀ ρ, ρ ∈ L ↔ (f.view ρ).isSome ∧ rid.Before ρ) :
    L = [] ∧ f.fileHdr.numPages ≤ rid'.pageNo ∨ ∃ B, L = rid' :: B ∧ rid'.pageNo < f.fileHdr.numPages := by
  cases L with
  | nil =>
    refine .inl ⟨rfl, ?_⟩
    rcases h.stop with hend | hrec
    · exact hend
    · by_contra hlt
      exact absurd ((hL rid').2 ⟨hrec, h.before (Int.not_le.1 hlt)⟩) List.not_mem_nil
  | cons a B =>
    obtain ⟨ha, hba⟩ := (hL a).1 List.mem_cons_self
    obtain ⟨hlt, hor⟩ := h.between a ha hba
    refine .inr ⟨B, ?_, hlt⟩
    rcases hor with rfl | hor
    · rfl
    · -- the first record is not behind another one
      have hrec : (f.view rid').isSome := h.stop.resolve_left (Int.not_le.2 hlt)
      rcases List.mem_cons.1 ((hL rid').2 ⟨hrec, h.before hlt⟩) with heq | hmem
      · rw [heq]
      · exact absurd hor (not_before_of_before ((List.pairwise_cons.1 hs).1 _ hmem)).2

/-- **A step leads from a record to the next one.** -/
theorem NextOf.of_split {A B : List Rid} (h : f.NextOf rid rid') (hs : f.rids = A ++ rid :: B) :
    B = [] ∧ f.fileHdr.numPages ≤ rid'.pageNo ∨ ∃ B', B = rid' :: B' ∧ rid'.pageNo < f.fileHdr.numPages := by
  have hpair := pairwise_rids (f := f)
  rw [hs, List.pairwise_append, List.pairwise_cons] at hpair
  refine h.of_tail hpair.2.1.2 fun ρ => ?_
  rw [← mem_rids, hs]
  constructor
  · exact fun hρ => ⟨by simp [hρ], hpair.2.1.1 ρ hρ⟩
  · rintro ⟨hρ, hb⟩
    rcases List.mem_append.1 hρ with hA | hρ
    · exact absurd hb (not_before_of_before (hpair.2.2 ρ hA rid List.mem_cons_self)).2
    · rcases List.mem_cons.1 hρ with rfl | hρ
      · exact absurd rfl (not_before_of_before hb).1
      · exact hρ

/-- The first step leads to the first record. -/
theorem NextOf.of_start (h : f.NextOf ⟨rmFirstRecordPage, -1⟩ rid') :
    f.rids = [] ∧ f.fileHdr.numPages ≤ rid'.pageNo ∨ ∃ B, f.rids = rid' :: B ∧ rid'.pageNo < f.fileHdr.numPages := by
  refine h.of_tail pairwise_rids fun ρ => ?_
  rw [mem_rids]
  refine ⟨fun hρ => ⟨hρ, ?_⟩, And.left⟩
  obtain ⟨⟨h1, h0, -⟩, -⟩ := inSlots_of_view hρ
  rcases Int.lt_or_eq_of_le h1 with h | h
  · exact .inl h
  · exact .inr ⟨h, by dsimp only; omega⟩

end RmFile

end Rmdb
