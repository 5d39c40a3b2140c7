import Mathlib.Data.List.Count
import OpenTube.Template.Meaning

/-!
# The cursor of the renderer

`tpl_complete` moves a pointer over the vector of a template. The distances of the
blocks were stored by `process_blocks` one level after another, so they are nested;
and a jump back, like a repetition, uses up one of the contexts. So the cursor comes
to an end, and it leaves the vector in one case only: a distance may lead to the
`TERM` element itself, which is taken for an element then.
-/

namespace OpenTube

open Loop

/-- The two fields of an element that move the cursor. Those of `TERM` are not set. -/
structure BlockFields where
  blockChecksum : Nat
  blockLength : Int
deriving DecidableEq, Repr

/-- The cursor at the label `a`, with the checksums that are left. -/
structure Cursor where
  pc : Int
  checksums : List Nat
deriving DecidableEq, Repr

section Definitions

variable (t : Template) (term : BlockFields)

/-- The fields of the element at a place. There is nothing behind `TERM`. -/
def Template.fieldsAt (pc : Int) : Option BlockFields :=
  if pc = t.vector.length then some term
  else if 0 ≤ pc then
    (t.vector[pc.toNat]?).map fun b => ⟨b.blockChecksum, b.blockLength⟩
  else none

/-- `vector++` and the test of the loop. -/
def Template.advanceCursor (s : Cursor) : Next Cursor Unit :=
  if s.pc + 1 = t.vector.length then .done () else .goto { s with pc := s.pc + 1 }

/-- One round from the label `a` on. -/
def Template.moveCursor (s : Cursor) : Option (Next Cursor Unit) :=
  (t.fieldsAt term s.pc).map fun b : BlockFields =>
    if b.blockChecksum = 0 then t.advanceCursor s
    else
      match s.checksums.idxOf? b.blockChecksum with
      | none =>
          if 0 < b.blockLength then .goto { s with pc := s.pc + b.blockLength }
          else t.advanceCursor s
      | some i =>
          if b.blockLength < 0 then .goto ⟨s.pc + b.blockLength, s.checksums.set i 0⟩
          else if b.blockLength = 1 then .goto { s with checksums := s.checksums.set i 0 }
          else t.advanceCursor s

/-- The cursor at the beginning. -/
def startCursor (blocks : List BlockContext) : Cursor := ⟨0, blocks.map BlockContext.checksum⟩

/-- With every vector of block contexts and whatever there is in `TERM`, the cursor
comes to an end and never leaves the vector. -/
structure Template.StaysInside : Prop where
  ends : ∀ term blocks, Loop.Ends (t.moveCursor term) (startCursor blocks) ()
  inside : ∀ term blocks s, Reaches (t.moveCursor term) (startCursor blocks) s →
    0 ≤ s.pc ∧ s.pc ≤ t.vector.length

/-- No block is passed over by a distance that leads to `TERM`. -/
def Template.NoSkipToTerm : Prop :=
  ∀ (i : Nat) (b : TplBlock), t.vector[i]? = some b → b.blockChecksum ≠ 0 → 0 < b.blockLength →
    i + b.blockLength ≠ t.vector.length

end Definitions

/-! ## The distances -/

/-- The distances of a vector lead to places in it or to its end, and those that lead
forward are nested. -/
structure Jumps (v : List TplBlock) : Prop where
  forward : ∀ (i : Nat) (b : TplBlock), v[i]? = some b → i + b.blockLength ≤ v.length
  backward : ∀ (i : Nat) (b : TplBlock), v[i]? = some b → 0 ≤ i + b.blockLength
  nested : ∀ (i j : Nat) (b c : TplBlock), v[i]? = some b → v[j]? = some c → i < j →
    j < i + b.blockLength → j + c.blockLength ≤ i + b.blockLength

theorem lt_length_of_getElem? {v : List TplBlock} {i : Nat} {b : TplBlock} (h : v[i]? = some b) :
    i < v.length :=
  (List.getElem?_eq_some_iff.1 h).1

/-- Elements without distances. -/
theorem jumps_of_zero {v : List TplBlock} (h : ∀ b ∈ v, b.blockLength = 0) : Jumps v where
  forward i b hb := by
    have hlt := lt_length_of_getElem? hb
    rw [h b (List.mem_of_getElem? hb)]
    omega
  backward i b hb := by
    rw [h b (List.mem_of_getElem? hb)]
    omega
  nested i j b c hb _ hij hlt := by
    rw [h b (List.mem_of_getElem? hb)] at hlt
    omega

/-- An element of one of two vectors. -/
theorem getElem?_append_cases {v w : List TplBlock} {i : Nat} {b : TplBlock}
    (h : (v ++ w)[i]? = some b) :
    i < v.length ∧ v[i]? = some b ∨ ∃ k, i = v.length + k ∧ w[k]? = some b := by
  rcases Nat.lt_or_ge i v.length with hlt | hge
  · rw [List.getElem?_append_left hlt] at h
    exact .inl ⟨hlt, h⟩
  · rw [List.getElem?_append_right hge] at h
    exact .inr ⟨i - v.length, by omega, h⟩

theorem Jumps.append {v w : List TplBlock} (hv : Jumps v) (hw : Jumps w) : Jumps (v ++ w) where
  forward i b hb := by
    rw [List.length_append]
    rcases getElem?_append_cases hb with ⟨-, hv'⟩ | ⟨k, rfl, hw'⟩
    · have hle := hv.forward i b hv'
      omega
    · have hle := hw.forward k b hw'
      omega
  backward i b hb := by
    rcases getElem?_append_cases hb with ⟨-, hv'⟩ | ⟨k, rfl, hw'⟩
    · exact hv.backward i b hv'
    · have hle := hw.backward k b hw'
      omega
  nested i j b c hb hc hij hlt := by
    rcases getElem?_append_cases hb with ⟨hi, hb'⟩ | ⟨k, rfl, hb'⟩
    · rcases getElem?_append_cases hc with ⟨-, hc'⟩ | ⟨l, rfl, hc'⟩
      · exact hv.nested i j b c hb' hc' hij hlt
      · -- no distance leads from the first vector into the second
        have hle := hv.forward i b hb'
        omega
    · rcases getElem?_append_cases hc with ⟨hj, -⟩ | ⟨l, rfl, hc'⟩
      · omega
      · have hle := hw.nested k l b c hb' hc' (by omega) (by omega)
        omega

/-- What `setBlockLength` does to an element. -/
theorem getElem?_setBlockLength {v : List TplBlock} {i : Nat} {b : TplBlock}
    (h : (setBlockLength v)[i]? = some b) :
    i = 0 ∧ b.blockLength = v.length ∨
      0 < i ∧ i + 1 = v.length ∧ b.blockLength = -(i : Int) ∨ 0 < i ∧ v[i]? = some b := by
  match v, h with
  | [], h => simp [setBlockLength] at h
  | [x], h =>
      cases i with
      | zero =>
          obtain rfl := Option.some.inj h
          exact .inl ⟨rfl, rfl⟩
      | succ i => simp [setBlockLength] at h
  | x :: y :: v, h =>
      rw [setBlockLength] at h
      · cases i with
        | zero =>
            obtain rfl := Option.some.inj h
            exact .inl ⟨rfl, by simp⟩
        | succ i =>
            rw [List.getElem?_cons_succ] at h
            rcases getElem?_append_cases h with ⟨hi, hb⟩ | ⟨k, hk, hb⟩
            · refine .inr (.inr ⟨by omega, ?_⟩)
              rw [List.getElem?_cons_succ, ← hb, List.dropLast_eq_take, List.getElem?_take_of_lt]
              simpa using hi
            · obtain ⟨e, he⟩ : ∃ e, (y :: v).getLast? = some e := ⟨_, List.getLast?_cons⟩
              rw [he, Option.toList_some, List.map_singleton, List.getElem?_singleton] at hb
              split_ifs at hb with hzero
              obtain rfl := Option.some.inj hb
              rw [List.length_dropLast, List.length_cons] at hk
              simp only [List.length_cons]
              omega
      · simp

theorem Jumps.setBlockLength {v : List TplBlock} (hv : Jumps v) : Jumps (setBlockLength v) where
  forward i b hb := by
    have hlt := lt_length_of_getElem? hb
    rw [length_setBlockLength] at hlt ⊢
    rcases getElem?_setBlockLength hb with ⟨rfl, hlen⟩ | ⟨-, -, hlen⟩ | ⟨-, hb'⟩
    · omega
    · omega
    · exact hv.forward i b hb'
  backward i b hb := by
    rcases getElem?_setBlockLength hb with ⟨rfl, hlen⟩ | ⟨-, -, hlen⟩ | ⟨-, hb'⟩
    · omega
    · omega
    · exact hv.backward i b hb'
  nested i j b c hb hc hij hlt := by
    have hj := lt_length_of_getElem? hc
    rw [length_setBlockLength] at hj
    rcases getElem?_setBlockLength hc with ⟨rfl, -⟩ | ⟨-, -, hlenc⟩ | ⟨-, hc'⟩
    · omega
    · rcases getElem?_setBlockLength hb with ⟨rfl, hlen⟩ | ⟨-, hi, -⟩ | ⟨-, hb'⟩
      · omega
      · omega
      · have hle := hv.forward i b hb'
        omega
    · have hle := hv.forward j c hc'
      rcases getElem?_setBlockLength hb with ⟨rfl, hlen⟩ | ⟨-, hi, -⟩ | ⟨-, hb'⟩
      · omega
      · omega
      · exact hv.nested i j b c hb' hc' hij hlt

/-- The elements of a piece have no distances. -/
theorem parseVariablesLoop_zero {n p : Nat} {s : List UInt8} {es : List TplBlock} {e : Nat}
    (h : parseVariablesLoop n p s = some (es, e)) : ∀ b ∈ es, b.blockLength = 0 := by
  induction n generalizing p s es with
  | zero =>
      obtain ⟨rfl, -⟩ := Prod.mk.inj (Option.some.inj h)
      simp
  | succ n ih =>
      rcases parseVariablesLoop_succ h with ⟨-, rfl, -⟩ | ⟨a, name, rest, es', -, -, -, hrest, rfl⟩
      · simp
      · intro b hb
        rcases List.mem_append.1 hb with hb | hb
        · exact (mem_roundElements hb).1
        · exact ih hrest b hb

theorem jumps_pieceVector {content : List UInt8} {cur : TplRegion} {prev : Nat} {len : Int}
    {v : List TplBlock} (h : pieceVector content cur prev len = some v) : Jumps v := by
  obtain ⟨w, hw, rfl⟩ := Option.map_eq_some_iff.1 h
  obtain ⟨⟨es, e⟩, hloop, rfl⟩ := Option.map_eq_some_iff.1 hw
  apply jumps_of_zero
  intro b hb
  obtain ⟨c, hc, rfl⟩ := List.mem_map.1 hb
  rcases List.mem_append.1 hc with hc | hc
  · exact parseVariablesLoop_zero hloop c hc
  · obtain rfl := List.mem_singleton.1 hc
    rfl

theorem jumps_nil : Jumps [] := jumps_of_zero (by simp)

theorem Jumps.finishBlock {content : List UInt8} {cur : TplRegion} {prev : Nat}
    {res v : List TplBlock} (hres : Jumps res) (h : finishBlock content cur prev res = some v) :
    Jumps v := by
  obtain ⟨w, hw, h⟩ := Option.bind_eq_some_iff.1 h
  have hlast : Jumps w := by
    split at hw
    · exact jumps_pieceVector hw
    · obtain rfl := Option.some.inj hw
      exact jumps_nil
  split at h
  · simp at h
  · obtain rfl := Option.some.inj h
    exact (hres.append hlast).setBlockLength

/-- The distances that `process_blocks` leaves. -/
theorem Jumps.processBlocks {content : List UInt8} {l : List TplRegion} {cur : TplRegion}
    {prev : Nat} {res v : List TplBlock} (hres : Jumps res)
    (h : processBlocks content l cur prev res = some v) : Jumps v := by
  induction l generalizing cur prev res v with
  | nil => exact hres.finishBlock h
  | cons next rest ih =>
      rw [OpenTube.processBlocks] at h
      split at h
      · exact ih hres h
      · split at h
        · obtain ⟨inner, hinner, h⟩ := Option.bind_eq_some_iff.1 h
          obtain ⟨upper, hupper, h⟩ := Option.bind_eq_some_iff.1 h
          have hjumps : Jumps upper := by
            split at hupper
            · exact jumps_pieceVector hupper
            · obtain rfl := Option.some.inj hupper
              exact jumps_nil
          exact ih (hres.append (hjumps.append (ih jumps_nil hinner))) h
        · exact hres.finishBlock h

theorem finishBlock_ne_nil {content : List UInt8} {cur : TplRegion} {prev : Nat}
    {res v : List TplBlock} (h : finishBlock content cur prev res = some v) : v ≠ [] := by
  obtain ⟨w, -, h⟩ := Option.bind_eq_some_iff.1 h
  split at h
  · simp at h
  · rename_i hne
    obtain rfl := Option.some.inj h
    rw [← List.length_pos_iff, length_setBlockLength]
    exact List.length_pos_iff.2 hne

theorem processBlocks_ne_nil {content : List UInt8} {l : List TplRegion} {cur : TplRegion}
    {prev : Nat} {res v : List TplBlock} (h : processBlocks content l cur prev res = some v) :
    v ≠ [] := by
  induction l generalizing prev res with
  | nil => exact finishBlock_ne_nil h
  | cons next rest ih =>
      rw [processBlocks] at h
      split at h
      · exact ih h
      · split at h
        · obtain ⟨inner, -, h⟩ := Option.bind_eq_some_iff.1 h
          obtain ⟨upper, -, h⟩ := Option.bind_eq_some_iff.1 h
          exact ih h
        · exact finishBlock_ne_nil h

theorem Jumps.map {v : List TplBlock} (hv : Jumps v) {f : TplBlock → TplBlock}
    (hf : ∀ b, (f b).blockLength = b.blockLength) : Jumps (v.map f) where
  forward i b hb := by
    rw [List.getElem?_map] at hb
    obtain ⟨x, hx, rfl⟩ := Option.map_eq_some_iff.1 hb
    rw [hf, List.length_map]
    exact hv.forward i x hx
  backward i b hb := by
    rw [List.getElem?_map] at hb
    obtain ⟨x, hx, rfl⟩ := Option.map_eq_some_iff.1 hb
    rw [hf]
    exact hv.backward i x hx
  nested i j b c hb hc hij hlt := by
    rw [List.getElem?_map] at hb hc
    obtain ⟨x, hx, rfl⟩ := Option.map_eq_some_iff.1 hb
    obtain ⟨y, hy, rfl⟩ := Option.map_eq_some_iff.1 hc
    rw [hf] at hlt
    rw [hf, hf]
    exact hv.nested i j x y hx hy hij hlt

/-- A compiled vector has an element, and its distances lead to places in it. -/
theorem jumps_of_compileContent {exec : PcreExec} {content : List UInt8} {t : Template}
    (h : compileContent exec content = some t) : t.vector ≠ [] ∧ Jumps t.vector := by
  obtain ⟨u, hu, rfl⟩ := Option.map_eq_some_iff.1 h
  obtain ⟨regions, -, hu⟩ := Option.bind_eq_some_iff.1 hu
  obtain ⟨v, hv, rfl⟩ := Option.map_eq_some_iff.1 hu
  refine ⟨?_, (jumps_nil.processBlocks hv).map fun _ => rfl⟩
  simpa [Template.adjustOffsets] using processBlocks_ne_nil hv

/-! ## The end of the cursor -/

section Moves

variable {t : Template} {term : BlockFields}

theorem fieldsAt_term : t.fieldsAt term t.vector.length = some term := if_pos rfl

theorem fieldsAt_of_getElem? {i : Nat} {b : TplBlock} (h : t.vector[i]? = some b) :
    t.fieldsAt term i = some ⟨b.blockChecksum, b.blockLength⟩ := by
  have hne : (i : Int) ≠ t.vector.length := by
    have hlt := lt_length_of_getElem? h
    omega
  rw [Template.fieldsAt, if_neg hne, if_pos (Int.natCast_nonneg i), Int.toNat_natCast, h]
  rfl

/-- Striking out a checksum leaves one less. -/
theorem countP_set_lt {cs : List Nat} {c i : Nat} (hc : c ≠ 0) (hi : cs.idxOf? c = some i) :
    (cs.set i 0).countP (· ≠ 0) < cs.countP (· ≠ 0) := by
  induction cs generalizing i with
  | nil => simp at hi
  | cons x cs ih =>
      rw [List.idxOf?_cons] at hi
      by_cases hx : x = c
      · subst hx
        obtain rfl : 0 = i := by simpa using hi
        simp [hc]
      · have hne : (x == c) = false := by simpa using hx
        rw [hne] at hi
        obtain ⟨j, hj, rfl⟩ := Option.map_eq_some_iff.1 hi
        have hlt := ih hj
        simp only [List.set_cons_succ, List.countP_cons]
        omega

/-- From every place in the vector the cursor comes to the end. -/
theorem ends_of_noSkipToTerm (hjumps : Jumps t.vector) (hskip : t.NoSkipToTerm) {i : Nat}
    (hi : i < t.vector.length) (cs : List Nat) : Loop.Ends (t.moveCursor term) ⟨i, cs⟩ () := by
  induction hk : cs.countP (· ≠ 0) using Nat.strong_induction_on generalizing i cs with
  | _ k ihk =>
  induction hd : t.vector.length - i using Nat.strong_induction_on generalizing i with
  | _ d ihd =>
  obtain ⟨b, hb⟩ : ∃ b, t.vector[i]? = some b := ⟨_, List.getElem?_eq_getElem hi⟩
  have hforward := hjumps.forward i b hb
  have hbackward := hjumps.backward i b hb
  -- the next element, or the end
  have hadvance : t.moveCursor term ⟨i, cs⟩ = some (t.advanceCursor ⟨i, cs⟩) →
      Loop.Ends (t.moveCursor term) ⟨i, cs⟩ () := by
    intro hmove
    by_cases hend : (i : Int) + 1 = t.vector.length
    · exact ends_of_done (by rw [hmove, Template.advanceCursor, if_pos hend])
    · have hnext := ihd (t.vector.length - (i + 1)) (by omega) (by omega) rfl
      refine (Reaches.single ?_).ends hnext
      rw [hmove, Template.advanceCursor, if_neg hend]
      simp
  by_cases hsum : b.blockChecksum = 0
  · apply hadvance
    simp [Template.moveCursor, fieldsAt_of_getElem? hb, hsum]
  · cases hidx : cs.idxOf? b.blockChecksum with
    | none =>
        by_cases hpos : 0 < b.blockLength
        · -- a skip: it does not lead to the end
          have hne := hskip i b hb hsum hpos
          obtain ⟨j, hj⟩ : ∃ j : Nat, (i : Int) + b.blockLength = j :=
            ⟨_, (Int.toNat_of_nonneg hbackward).symm⟩
          have hnext := ihd (t.vector.length - j) (by omega) (i := j) (by omega) rfl
          refine (Reaches.single ?_).ends hnext
          simp [Template.moveCursor, fieldsAt_of_getElem? hb, hsum, hidx, hpos, hj]
        · apply hadvance
          simp [Template.moveCursor, fieldsAt_of_getElem? hb, hsum, hidx, hpos]
    | some m =>
        have hlt := countP_set_lt hsum hidx
        by_cases hneg : b.blockLength < 0
        · obtain ⟨j, hj⟩ : ∃ j : Nat, (i : Int) + b.blockLength = j :=
            ⟨_, (Int.toNat_of_nonneg hbackward).symm⟩
          have hnext := ihk _ (hk ▸ hlt) (i := j) (by omega) (cs.set m 0) rfl
          refine (Reaches.single ?_).ends hnext
          simp [Template.moveCursor, fieldsAt_of_getElem? hb, hsum, hidx, hneg, hj]
        · by_cases hone : b.blockLength = 1
          · have hnext := ihk _ (hk ▸ hlt) hi (cs.set m 0) rfl
            refine (Reaches.single ?_).ends hnext
            simp [Template.moveCursor, fieldsAt_of_getElem? hb, hsum, hidx, hone]
          · apply hadvance
            simp [Template.moveCursor, fieldsAt_of_getElem? hb, hsum, hidx, hneg, hone]

/-- The cursor that has come to an end has never left the vector. -/
theorem inside_of_ends {s s' : Cursor} (h : Loop.Ends (t.moveCursor term) s ())
    (hs : Reaches (t.moveCursor term) s s') : 0 ≤ s'.pc ∧ s'.pc ≤ t.vector.length := by
  obtain ⟨n, hn⟩ := h.of_reaches hs
  by_contra hout
  have hnone : t.moveCursor term s' = none := by
    rw [Template.moveCursor, Option.map_eq_none_iff, Template.fieldsAt]
    rw [not_and_or] at hout
    rw [if_neg (by omega)]
    split_ifs with hpos
    · rw [Option.map_eq_none_iff, List.getElem?_eq_none_iff]
      omega
    · rfl
  cases n with
  | zero => simp [Loop.run] at hn
  | succ n => simp [Loop.run, hnone] at hn

/-- From `TERM` the cursor goes on behind it if the checksum there is zero. -/
theorem run_at_term (n : Nat) (cs : List Nat) :
    Loop.run (t.moveCursor ⟨0, 0⟩) n ⟨t.vector.length, cs⟩ = none := by
  have hterm : t.moveCursor ⟨0, 0⟩ ⟨t.vector.length, cs⟩ =
      some (.goto ⟨t.vector.length + 1, cs⟩) := by
    have hne : (t.vector.length : Int) + 1 ≠ t.vector.length := by omega
    simp [Template.moveCursor, fieldsAt_term, Template.advanceCursor, hne]
  have hbehind : t.moveCursor ⟨0, 0⟩ ⟨t.vector.length + 1, cs⟩ = none := by
    have hfields : t.fieldsAt ⟨0, 0⟩ (t.vector.length + 1) = none := by
      rw [Template.fieldsAt, if_neg (by omega), if_pos (by omega), Option.map_eq_none_iff,
        List.getElem?_eq_none_iff]
      omega
    rw [Template.moveCursor, hfields, Option.map_none]
  match n with
  | 0 => rfl
  | 1 => simp [Loop.run, hterm]
  | n + 2 => simp [Loop.run, hterm, hbehind]

/-- Without contexts the cursor comes to the first distance that leads to `TERM`. -/
theorem run_of_skip (hjumps : Jumps t.vector) {i j : Nat} {b : TplBlock}
    (hb : t.vector[i]? = some b) (hsum : b.blockChecksum ≠ 0)
    (hskip : i + b.blockLength = t.vector.length) (hj : j ≤ i) (n : Nat) :
    Loop.run (t.moveCursor ⟨0, 0⟩) n ⟨j, []⟩ = none := by
  have hi := lt_length_of_getElem? hb
  induction n generalizing j with
  | zero => rfl
  | succ n ih =>
      obtain ⟨c, hc⟩ : ∃ c, t.vector[j]? = some c := ⟨_, List.getElem?_eq_getElem (by omega)⟩
      have hforward := hjumps.forward j c hc
      have hadvance : j < i → t.advanceCursor ⟨j, []⟩ = .goto ⟨(j + 1 : Nat), []⟩ := by
        intro hlt
        rw [Template.advanceCursor, if_neg (by simp only; omega)]
        simp
      by_cases hzero : c.blockChecksum = 0
      · have hlt : j < i := by
          refine lt_of_le_of_ne hj ?_
          rintro rfl
          rw [Option.some.inj (hc.symm.trans hb)] at hzero
          exact hsum hzero
        have hmove : t.moveCursor ⟨0, 0⟩ ⟨j, []⟩ = some (.goto ⟨(j + 1 : Nat), []⟩) := by
          simp [Template.moveCursor, fieldsAt_of_getElem? hc, hzero, hadvance hlt]
        rw [Loop.run, hmove]
        exact ih hlt
      · by_cases hpos : 0 < c.blockLength
        · have hmove : t.moveCursor ⟨0, 0⟩ ⟨j, []⟩ = some (.goto ⟨j + c.blockLength, []⟩) := by
            simp [Template.moveCursor, fieldsAt_of_getElem? hc, hzero, hpos]
          rw [Loop.run, hmove]
          by_cases hle : (j : Int) + c.blockLength ≤ i
          · obtain ⟨k, hk⟩ : ∃ k : Nat, (j : Int) + c.blockLength = k :=
              ⟨_, (Int.toNat_of_nonneg (hjumps.backward j c hc)).symm⟩
            rw [hk] at hle ⊢
            exact ih (by omega)
          · -- the distance goes beyond `i`, so it leads to the end as well
            have hend : (j : Int) + c.blockLength = t.vector.length := by
              rcases Nat.lt_or_ge j i with hlt | hge
              · have hnested := hjumps.nested j i c b hc hb hlt (by omega)
                omega
              · obtain rfl : j = i := by omega
                rw [Option.some.inj (hc.symm.trans hb)]
                exact hskip
            rw [hend]
            exact run_at_term n []
        · have hlt : j < i := by
            refine lt_of_le_of_ne hj ?_
            rintro rfl
            rw [Option.some.inj (hc.symm.trans hb)] at hpos
            omega
          have hmove : t.moveCursor ⟨0, 0⟩ ⟨j, []⟩ = some (.goto ⟨(j + 1 : Nat), []⟩) := by
            simp [Template.moveCursor, fieldsAt_of_getElem? hc, hzero, hpos, hadvance hlt]
          rw [Loop.run, hmove]
          exact ih hlt

end Moves

/-! ## The cursor and the renderer -/

/-- The texts of the elements are inside of the content. -/
def Template.Readable (t : Template) : Prop :=
  ∀ b ∈ t.vector, ∀ len, b.type = .text len → t.read b.contentOffset len ≠ none

section Renderer

variable {t : Template} {scope : Scope} {blocks : List BlockContext}

variable (scope) in
theorem Template.Readable.exists_emit (h : t.Readable) {b : TplBlock} (hb : b ∈ t.vector)
    (own : Option (List AssocVariable)) : ∃ e, t.emit scope own b = some e := by
  unfold Template.emit
  split
  · rename_i len htype
    exact Option.ne_none_iff_exists'.1 (h b hb len htype)
  · exact ⟨_, rfl⟩

/-- A round of the renderer leads to where the cursor moves. -/
def FollowsCursor (o : Option (Next RenderState (List UInt8))) : Next Cursor Unit → Prop
  | .goto s => 0 ≤ s.pc → ∃ out, o = some (.goto ⟨s.pc.toNat, s.checksums, out⟩)
  | .done _ => ∃ out, o = some (.done out)

theorem followsCursor_advance {i : Nat} (hi : i < t.vector.length) (cs : List Nat)
    (out : List UInt8) :
    FollowsCursor (some (t.advance ⟨i, cs, out⟩)) (t.advanceCursor ⟨i, cs⟩) := by
  unfold Template.advanceCursor Template.advance
  by_cases hend : i + 1 < t.vector.length
  · have hne : (i : Int) + 1 ≠ t.vector.length := by omega
    rw [if_pos hend, if_neg hne]
    exact fun _ => ⟨out, rfl⟩
  · have heq : (i : Int) + 1 = t.vector.length := by omega
    rw [if_neg hend, if_pos heq]
    exact ⟨out, rfl⟩

theorem followsCursor_jump (i : Nat) (cs : List Nat) (out : List UInt8) (d : Int) :
    FollowsCursor (RenderState.jump ⟨i, cs, out⟩ d) (.goto ⟨i + d, cs⟩) := by
  intro hpos
  exact ⟨out, if_pos hpos⟩

variable (scope blocks) in
/-- The round of the renderer moves the cursor. -/
theorem followsCursor_step (h : t.Readable) {term : BlockFields} {i : Nat}
    (hi : i < t.vector.length) {cs : List Nat} (out : List UInt8) {e : Next Cursor Unit}
    (hmove : t.moveCursor term ⟨i, cs⟩ = some e) :
    FollowsCursor (t.step scope blocks ⟨i, cs, out⟩) e := by
  obtain ⟨b, hb⟩ : ∃ b, t.vector[i]? = some b := ⟨_, List.getElem?_eq_getElem hi⟩
  have hemit := fun own => h.exists_emit scope (List.mem_of_getElem? hb) own
  rw [Template.moveCursor, fieldsAt_of_getElem? hb, Option.map_some, Option.some.injEq] at hmove
  subst hmove
  simp only [Template.step, hb]
  by_cases hsum : b.blockChecksum = 0
  · obtain ⟨x, hx⟩ := hemit none
    simp only [hsum, if_true, hx, Option.map_some]
    exact followsCursor_advance hi cs (out ++ x)
  · cases hidx : cs.idxOf? b.blockChecksum with
    | none =>
        simp only [hsum, if_false]
        split_ifs with hpos
        · exact followsCursor_jump i cs out b.blockLength
        · exact followsCursor_advance hi cs out
    | some m =>
        obtain ⟨x, hx⟩ := hemit (blocks[m]?.map BlockContext.vars)
        simp only [hsum, if_false, hx, Option.bind_some]
        split_ifs with hneg hone
        · exact followsCursor_jump i (cs.set m 0) (out ++ x) b.blockLength
        · exact fun _ => ⟨out ++ x, by simp⟩
        · exact followsCursor_advance hi cs (out ++ x)

/-- A template that can be read and in which the cursor stays is rendered. -/
theorem exists_tplComplete (h : t.Readable) (hstays : t.StaysInside) (scope : Scope)
    (blocks : List BlockContext) : ∃ out, TplComplete t scope blocks out := by
  have hrun : ∀ n pc cs out, Loop.run (t.moveCursor ⟨0, 0⟩) n ⟨pc, cs⟩ = some () →
      0 ≤ pc ∧ ∃ out', Loop.Ends (t.step scope blocks) ⟨pc.toNat, cs, out⟩ out' := by
    intro n
    induction n with
    | zero => simp [Loop.run]
    | succ n ih =>
        intro pc cs out hn
        obtain ⟨hlow, hhigh⟩ := inside_of_ends ⟨n + 1, hn⟩ Reaches.refl
        obtain ⟨i, rfl⟩ := Int.eq_ofNat_of_zero_le hlow
        have hi : i < t.vector.length := by
          refine lt_of_le_of_ne (by simpa using hhigh) ?_
          rintro rfl
          rw [run_at_term] at hn
          simp at hn
        refine ⟨hlow, ?_⟩
        rw [Int.toNat_natCast]
        rw [Loop.run] at hn
        cases hmove : t.moveCursor ⟨0, 0⟩ ⟨i, cs⟩ with
        | none => simp [hmove] at hn
        | some e =>
            have hstep := followsCursor_step scope blocks h hi out hmove
            cases e with
            | done u =>
                obtain ⟨out', hout⟩ := hstep
                exact ⟨out', ends_of_done hout⟩
            | goto s =>
                simp only [hmove] at hn
                obtain ⟨hpos, -⟩ := ih s.pc s.checksums [] hn
                obtain ⟨out', hout⟩ := hstep hpos
                obtain ⟨-, out'', hends⟩ := ih s.pc s.checksums out' hn
                exact ⟨out'', (Reaches.single hout).ends hends⟩
  unfold TplComplete
  split_ifs
  · exact ⟨[], rfl⟩
  · obtain ⟨n, hn⟩ := hstays.ends ⟨0, 0⟩ blocks
    exact (hrun n 0 _ [] hn).2

end Renderer

/-- The cursor of a compiled template comes to an end inside of the vector if and only
if no distance of a block leads to `TERM`. -/
theorem cursorStays_iff {exec : PcreExec} {content : List UInt8} {t : Template}
    (h : compileContent exec content = some t) : t.StaysInside ↔ t.NoSkipToTerm := by
  obtain ⟨hne, hjumps⟩ := jumps_of_compileContent h
  constructor
  · intro hstays i b hb hsum _ hskip
    obtain ⟨n, hn⟩ := hstays.ends ⟨0, 0⟩ []
    have hnone := run_of_skip hjumps hb hsum hskip (Nat.zero_le i) n
    exact absurd (hnone.symm.trans hn) (by simp)
  · intro hskip
    have hends : ∀ term blocks, Loop.Ends (t.moveCursor term) (startCursor blocks) () := by
      intro term blocks
      exact ends_of_noSkipToTerm hjumps hskip (List.length_pos_iff.2 hne) _
    exact ⟨hends, fun term blocks s hs => inside_of_ends (hends term blocks) hs⟩

instance Template.NoSkipToTerm.decidable (t : Template) : Decidable t.NoSkipToTerm :=
  decidable_of_iff (∀ i, (hi : i < t.vector.length) → t.vector[i].blockChecksum ≠ 0 →
      0 < t.vector[i].blockLength → i + t.vector[i].blockLength ≠ t.vector.length)
    ⟨fun h i b hb => by
      obtain ⟨hi, rfl⟩ := List.getElem?_eq_some_iff.1 hb
      exact h i hi,
    fun h i hi => h i _ (List.getElem?_eq_getElem hi)⟩

/-- The template `t{block a}x{end a}u`. -/
theorem cursorStays_oneBlock :
    ∃ t, compileContent oneBlock.exec oneBlock.print = some t ∧ t.StaysInside := by
  have hsome : (compileContent oneBlock.exec oneBlock.print).isSome := by decide +kernel
  have hskip : ∀ t ∈ compileContent oneBlock.exec oneBlock.print, t.NoSkipToTerm := by
    decide +kernel
  obtain ⟨t, ht⟩ := Option.isSome_iff_exists.1 hsome
  exact ⟨t, ht, (cursorStays_iff ht).2 (hskip t ht)⟩

/-- The template `{block a}x{end a}`. -/
def onlyBlock : TplBody := .block [] tagA (.last (ascii "x")) (.last [])

/-- Without contexts the cursor of `{block a}x{end a}` leaves the vector. -/
theorem not_cursorStays_onlyBlock :
    ∃ t, compileContent onlyBlock.exec onlyBlock.print = some t ∧ ¬ t.StaysInside := by
  have hsome : (compileContent onlyBlock.exec onlyBlock.print).isSome := by decide +kernel
  have hskip : ∀ t ∈ compileContent onlyBlock.exec onlyBlock.print,
      ∃ b ∈ t.vector[0]?, b.blockChecksum ≠ 0 ∧
        ((0 : Nat) : Int) + TplBlock.blockLength b = (t.vector.length : Int) := by
    decide +kernel
  obtain ⟨t, ht⟩ := Option.isSome_iff_exists.1 hsome
  refine ⟨t, ht, fun hstays => ?_⟩
  obtain ⟨b, hb, hsum, hend⟩ := hskip t ht
  obtain ⟨n, hn⟩ := hstays.ends ⟨0, 0⟩ []
  have hnone := run_of_skip (jumps_of_compileContent ht).2 hb hsum hend (le_refl 0) n
  exact absurd (hnone.symm.trans hn) (by simp)

end OpenTube
