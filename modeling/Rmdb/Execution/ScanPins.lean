import Rmdb.Execution.IndexScan
import Rmdb.Index.Touches

/-!
# The pins that scans leave

- `IxCall.performAll`: calls of executors on an index, one after the other. Whatever the pages hold and whatever the
  pool answers, `IxScan::next` is the only call that leaves a pin (`pins_performCalls`);
- `pins_rangeScan_newIndex`: a range scan leaves one pin for each entry it delivers.
-/

namespace Rmdb

open Lib

/-! ## Calls -/

namespace Ledger

/-- Some more pins on each page. -/
def pinMany (L : Ledger) (n : Int → Nat) : Ledger := ⟨fun p => L.pins p + n p, fun p => L.held p + n p, L.loose⟩

theorem pin_eq_pinMany (L : Ledger) (p : Int) : L.pin p = L.pinMany fun q => if q = p then 1 else 0 := by
  ext q <;> by_cases hq : q = p <;> simp [pin, pinMany, hq]

theorem pinMany_pinMany (L : Ledger) (n m : Int → Nat) : (L.pinMany n).pinMany m = L.pinMany fun p => n p + m p := by
  simp [pinMany, Nat.add_assoc]

theorem Looser.pinMany {L M : Ledger} (h : L.Looser M) (n : Int → Nat) : (L.pinMany n).Looser (M.pinMany n) where
  pins := by simp [Ledger.pinMany, h.pins]
  held := by simp [Ledger.pinMany, h.held]
  loose := h.loose

end Ledger

namespace IxCall

open IxIndexHandle

variable {S : ExactCols} {fuel : Nat}

/-- The calls one after the other. -/
def performAll (fuel : Nat) : List IxCall → IxM S.Key Unit
  | [] => return
  | c :: cs => do
    let _ ← c.onTree fuel
    performAll fuel cs

/-- `IxScan::next` from a position on the page. -/
def stepsFrom (p : Int) : IxCall → Bool
  | .scanNext iid => iid.pageNo = p
  | _ => false

/-- The computation returns with the pins of before, and `n p` more on each page `p`. -/
abbrev Leaves {α : Type} (x : IxM S.Key α) (n : Int → Nat) : Prop :=
  ∀ L, From L x fun _ s => (L.pinMany n).Looser s.ledger

theorem Leaves.bind {α β : Type} {x : IxM S.Key α} {g : α → IxM S.Key β} {n m : Int → Nat} (hx : Leaves x n)
    (hg : ∀ a, Leaves (g a) m) : Leaves (x >>= g) fun p => n p + m p := by
  refine fun L => Act.Triple.bind (hx L) fun a => Act.Triple.of_eq fun t ht => ?_
  refine ((hg a t.ledger).start rfl).conseq (fun _ hs => hs) (fun _ s hs => ?_) fun _ _ _ => trivial
  rw [← Ledger.pinMany_pinMany]
  exact (ht.pinMany m).trans hs

theorem leaves_withKey {α : Type} {buf : Bytes} {x : S.Key → IxM S.Key α} {n : Int → Nat} (h : ∀ k, Leaves (x k) n) :
    Leaves (withKey buf x) n := by
  unfold withKey
  split
  · exact h _
  · exact fun _ => books_throw

/-- Only a step of a scan leaves a pin. -/
theorem leaves_onTree (c : IxCall) : Leaves (c.onTree fuel : IxM S.Key c.Resp) fun p => if c.stepsFrom p then 1 else 0 := by
  cases c with
  | getValue key => exact leaves_withKey fun k L => books_getValue.loosens
  | insertEntry key rid => exact leaves_withKey fun k L => books_insertEntry.loosens.bind fun _ _ _ => books_pure.loosens
  | deleteEntry key => exact leaves_withKey fun k L => loosens_deleteEntry
  | lowerBound key => exact leaves_withKey fun k L => books_lowerBound.loosens
  | upperBound key => exact leaves_withKey fun k L => books_upperBound.loosens
  | scanNext iid =>
    intro L
    refine books_scanStep.conseq (fun _ hs => hs) (fun _ s hs => ?_) fun _ _ _ => trivial
    have hpin : L.pin iid.pageNo = L.pinMany fun p => if (scanNext iid).stepsFrom p then 1 else 0 := by
      rw [Ledger.pin_eq_pinMany]
      simp only [stepsFrom, decide_eq_true_eq, @eq_comm Int iid.pageNo]
    rw [hs, hpin]
    exact .refl
  | getRid iid => exact fun L => books_getRid.loosens

theorem leaves_performAll : ∀ calls : List IxCall,
    Leaves (performAll fuel calls : IxM S.Key Unit) fun p => calls.countP (stepsFrom p)
  | [] => fun _ => books_pure.loosens
  | c :: calls => by
    have hcount : (fun p => (c :: calls).countP (stepsFrom p)) =
        fun p => (if c.stepsFrom p then 1 else 0) + calls.countP (stepsFrom p) := by
      funext p
      rw [List.countP_cons, Nat.add_comm]
    rw [hcount]
    exact (leaves_onTree c).bind fun _ => leaves_performAll calls

/-- **The pins after every sequence of calls that returns**, on any pages and with any answers of the pool: those of
before, and one for each step of a scan. -/
theorem pins_performCalls (calls : List IxCall) {s s' : IxIndexHandle S.Key}
    (h : (performAll fuel calls).run s = (.ok (), s')) (p : Int) :
    s'.pins p = s.pins p + calls.countP (stepsFrom p) := by
  have hpins := ((leaves_performAll calls s.ledger).ok rfl h).pins
  exact congrFun hpins p

/-- An insertion, a step of a scan on the root, and a search. -/
theorem pins_performCalls_three : ((performAll 2 [.insertEntry (intBytes 1) ⟨1, 0⟩, .scanNext ⟨2, 0⟩,
    .getValue (intBytes 1)]).run (newIndex intCols 3)).2.pins 2 = 1 :=
  pins_performCalls [.insertEntry (intBytes 1) ⟨1, 0⟩, .scanNext ⟨2, 0⟩, .getValue (intBytes 1)]
    (Prod.ext (show ((performAll 2 _).run (newIndex intCols 3)).1 = .ok () from rfl) rfl) 2

end IxCall

/-! ## Range scans -/

namespace IxFile

variable {κ : Type} (f : IxFile κ)

/-- The entries with the leaves that hold them. -/
def spots (leaves : List Int) : List (Int × (κ × Rid)) := leaves.flatMap fun p => (f.pairs p).map fun e => (p, e)

variable {f} {leaves : List Int} {i : Nat} {iid : Iid} {p : Int}

theorem map_snd_spots : (f.spots leaves).map Prod.snd = f.entries leaves := by
  rw [spots, List.map_flatMap, entries]
  simp

theorem length_spots : (f.spots leaves).length = (f.entries leaves).length := by
  rw [← map_snd_spots, List.length_map]

/-- The entry at a position is in the leaf of the position. -/
theorem Place.spot (h : f.Place leaves i iid) (hi : i < (f.entries leaves).length) :
    ∃ hi' : i < (f.spots leaves).length, ((f.spots leaves)[i]).1 = iid.pageNo := by
  refine ⟨length_spots.symm ▸ hi, ?_⟩
  obtain ⟨A, p, B, j, e, rfl, rfl, rfl, hlt, -⟩ := Tree.exists_slot h hi
  have hsplit : f.spots (A ++ p :: B) = f.spots A ++ ((f.pairs p).map (fun e => (p, e)) ++ f.spots B) := by simp [spots]
  simp only [hsplit]
  rw [List.getElem_append_right (by rw [length_spots]; omega), List.getElem_append_left (by rw [length_spots]; simpa using hlt)]
  simp

/-- What one leaf has of them. -/
theorem countP_spots (P : κ × Rid → Bool) : ∀ {leaves : List Int}, leaves.Nodup →
    (f.spots leaves).countP (fun x => x.1 = p && P x.2) = if p ∈ leaves then (f.pairs p).countP P else 0
  | [], _ => rfl
  | q :: leaves, hn => by
    obtain ⟨hq, hn⟩ := List.nodup_cons.1 hn
    have ih := countP_spots P hn
    have hcons : f.spots (q :: leaves) = (f.pairs q).map (fun e => (q, e)) ++ f.spots leaves := rfl
    rw [hcons, List.countP_append, List.countP_map, ih]
    by_cases hpq : q = p
    · subst hpq
      simp [hq, Function.comp_def]
    · simp [hpq, Ne.symm hpq, Function.comp_def]

end IxFile

namespace IxFile.Tree

open IxIndexHandle

variable {κ : Type} [LinearOrder κ] {f : IxFile κ} {leaves : List Int} {ups : List (List Int)} {fuel i j : Nat}
  {iid last : Iid} {rids : List Rid} {s s' : IxIndexHandle κ}

/-- A scan leaves a pin on the leaf of each entry that it delivers. -/
theorem ledger_scanRids (h : f.Tree leaves ups) (hp : f.Place leaves i iid) (hl : f.Place leaves j last) (hle : i ≤ j)
    (hs : Shows s f) (hrun : (IxIndexHandle.scanRids fuel iid last).run s = (.ok rids, s')) :
    s'.ledger = s.ledger.pinMany fun p => (((f.spots leaves).drop i).take (j - i)).countP fun x => x.1 = p := by
  have hn := (List.nodup_append.1 h.nodup).1
  induction hd : j - i generalizing i iid fuel s rids with
  | zero =>
    obtain rfl : i = j := by omega
    cases fuel with
    | zero => cases hrun
    | succ n =>
      rw [IxIndexHandle.scanRids, if_pos (hp.eq hl)] at hrun
      have hsame : s' = s := (Prod.mk.inj hrun).2.symm
      rw [hsame]
      rfl
  | succ d ih =>
    have hi : i < (f.entries leaves).length := Nat.lt_of_lt_of_le (by omega) hl.le
    have hne : iid ≠ last := by
      rintro rfl
      have := hp.unique hn hl
      omega
    cases fuel with
    | zero => cases hrun
    | succ n =>
      obtain ⟨iid', hnext, hp'⟩ := h.leadsTo_scanNext hp hi hne
      obtain ⟨s₁, hrun₁, hs₁⟩ := h.leadsTo_getRid hp (List.getElem?_eq_getElem hi) s hs
      obtain ⟨s₂, hrun₂, hs₂⟩ := hnext s₁ hs₁
      have hL₁ : s₁.ledger = s.ledger := books_getRid.ok rfl hrun₁
      have hL₂ : s₂.ledger = s.ledger.pin iid.pageNo := books_scanNext.ok hL₁ hrun₂
      rw [IxIndexHandle.scanRids, if_neg hne, Act.run_bind_of_ok hrun₁, Act.run_bind_of_ok hrun₂] at hrun
      obtain ⟨rids', t, hrest, hret⟩ := Act.run_bind_eq_ok.1 hrun
      obtain rfl : s' = t := (Prod.mk.inj hret).2.symm
      obtain ⟨hi', hpage⟩ := hp.spot hi
      rw [ih hp' (by omega) hs₂ hrest (by omega), hL₂, Ledger.pin_eq_pinMany, Ledger.pinMany_pinMany]
      congr 1
      funext p
      rw [List.drop_eq_getElem_cons hi', List.take_succ_cons, List.countP_cons, hpage, Nat.add_comm]
      simp [eq_comm]

variable {low high : κ} {lowInclusive highInclusive : Bool} {turns : Nat}

theorem ledger_rangeScan (h : f.Tree leaves ups) (hfuel : ups.length < fuel) (hs : Shows s f)
    (hturns : (f.entries leaves).length < turns)
    (hrun : (rangeScan fuel turns low lowInclusive high highInclusive).run s = (.ok rids, s')) :
    s'.ledger = s.ledger.pinMany fun p => if p ∈ leaves then
      (f.pairs p).countP fun e => ¬BeforeLow low lowInclusive e.1 ∧ UpToHigh high highInclusive e.1 else 0 := by
  obtain ⟨i, iid, hlower, hp, hcut⟩ := h.leadsTo_lower hfuel low lowInclusive
  obtain ⟨j, last, hupper, hl, hcut'⟩ := h.leadsTo_upper hfuel high highInclusive
  obtain ⟨s₁, hrun₁, hs₁⟩ := hlower s hs
  obtain ⟨s₂, hrun₂, hs₂⟩ := hupper s₁ hs₁
  have hL₁ : s₁.ledger = s.ledger := (Books.ite books_lowerBound books_upperBound).ok rfl hrun₁
  have hL₂ : s₂.ledger = s.ledger := (Books.ite books_upperBound books_lowerBound).ok hL₁ hrun₂
  rw [rangeScan, Act.run_bind_of_ok hrun₁, Act.run_bind_of_ok hrun₂] at hrun
  have hle : i ≤ j := by
    by_contra hlt
    have hleft : (f.entries leaves).length - i < turns := by omega
    obtain ⟨t, hbad, -⟩ := h.run_scanRids_inverted hp hl (Nat.lt_of_not_le hlt) hleft hs₂
    cases hbad.symm.trans hrun
  rw [h.ledger_scanRids hp hl hle hs₂ hrun, hL₂]
  congr 1
  funext p
  rw [← IxFile.map_snd_spots] at hcut hcut'
  rw [← hcut.of_map.filter hcut'.of_map hle, List.countP_filter]
  exact IxFile.countP_spots (fun e => decide (¬BeforeLow low lowInclusive e.1 ∧ UpToHigh high highInclusive e.1))
    (List.nodup_append.1 h.nodup).1

end IxFile.Tree

section exact
open IxIndexHandle
variable {S : ExactCols} {next : Int}

/-- **Every range scan of every index leaves one pin for each entry it delivers**, on the leaf that holds it. -/
theorem pins_rangeScan_newIndex (hcols : IxManager.Accepted S.cols) (hnext : ixInitNumPages ≤ next)
    (calls : List (IndexCall S.Key)) (low high : S.Key) (lowInclusive highInclusive : Bool) {fuel turns : Nat}
    (hfuel : calls.length < fuel) (hturns : calls.length < turns) :
    ∃ s leaves ups, (IndexCall.performAll fuel calls).run (newIndex S next) =
        (.ok (IndexCall.meanings (fun _ => none) calls).1, s) ∧ s.file.Tree leaves ups ∧ (∀ p, s.pins p = 0) ∧
      ∀ rids s', (rangeScan fuel turns low lowInclusive high highInclusive).run s = (.ok rids, s') →
        ∀ p, s'.pins p = if p ∈ leaves then
          (s.file.pairs p).countP fun e => ¬BeforeLow low lowInclusive e.1 ∧ UpToHigh high highInclusive e.1 else 0 := by
  obtain ⟨s, f, leaves, ups, hrun, hs, ht, -, hlen⟩ := exists_run_newIndex hcols hnext calls hfuel
  have hL := (loosens_performAll calls).ok (rfl : (newIndex S next).ledger = _) hrun
  obtain rfl : s.file = f := hs.1
  have hzero : ∀ p, s.pins p = 0 := fun p => congrFun hL.pins p
  refine ⟨s, leaves, ups, hrun, ht, hzero, fun rids s' hscan p => ?_⟩
  have hledger := ht.ledger_rangeScan (Nat.lt_of_le_of_lt (ht.depth_le.trans hlen) hfuel) hs
    (Nat.lt_of_le_of_lt hlen hturns) hscan
  have hpins := congrFun (congrArg Ledger.pins hledger) p
  refine hpins.trans ?_
  show s.pins p + _ = _
  rw [hzero, Nat.zero_add]

/-- A scan of an index with one entry returns, and leaves these pins. -/
theorem pins_rangeScan_newIndex_one : ∃ s s' leaves ups rids, s.file.Tree leaves ups ∧ (∀ p, s.pins p = 0) ∧
    (rangeScan 2 2 (intKey 1) true (intKey 1) true).run s = (.ok rids, s') ∧
    ∀ p, s'.pins p = if p ∈ leaves then
      (s.file.pairs p).countP fun e => ¬BeforeLow (intKey 1) true e.1 ∧ UpToHigh (intKey 1) true e.1 else 0 := by
  obtain ⟨s, leaves, ups, hrun, ht, hzero, hall⟩ := pins_rangeScan_newIndex accepted_intCols
    (show ixInitNumPages ≤ 3 by decide) [.insertEntry (intKey 1) ⟨1, 0⟩] (intKey 1) (intKey 1) true true
    (Nat.lt_succ_self 1) (Nat.lt_succ_self 1)
  obtain ⟨t, f, leaves', ups', hrun', hs, ht', hm, hlen⟩ := exists_run_newIndex accepted_intCols
    (show ixInitNumPages ≤ 3 by decide) [.insertEntry (intKey 1) ⟨1, 0⟩] (Nat.lt_succ_self 1)
  obtain rfl : s = t := (Prod.mk.inj (hrun.symm.trans hrun')).2
  have hok : ∀ e ∈ f.entries leaves', BeforeLow (intKey 1) true e.1 → UpToHigh (intKey 1) true e.1 := by
    intro e he _
    have hkey : Function.update (fun _ => none) (intKey 1) (some ⟨1, 0⟩) e.1 = some e.2 := (hm e.1 e.2).1 he
    by_cases hk : e.1 = intKey 1
    · exact .inr ⟨rfl, hk⟩
    · rw [Function.update_of_ne hk] at hkey
      cases hkey
  obtain ⟨s', hscan, -⟩ := ht'.leadsTo_rangeScan (Nat.lt_of_le_of_lt (ht'.depth_le.trans hlen) (Nat.lt_succ_self 1))
    (Nat.lt_of_le_of_lt hlen (Nat.lt_succ_self 1)) hok s hs
  exact ⟨s, s', leaves, ups, _, ht, hzero, hscan, hall _ s' hscan⟩

end exact

end Rmdb
