import OpenTube.Http.GzipPage
import OpenTube.Template.Render

/-!
# Rendering into a buffer

`tpl_complete` puts what it renders behind the bytes a buffer has already. The
length of the buffer is a `uint`: as long as it does not overflow, the buffer holds
in the end what was in it, and behind that the rendered text.
-/

namespace OpenTube

/-- `append_to_buffer`. A buffer that is moved is placed at `addr`. -/
def appendToBuffer (b : Buf) (bytes : List UInt8) (addr : Int) : Option Buf :=
  let e := (b.expand bytes.length addr).1
  e.store (e.data + uint (e.curLen - bytes.length)) bytes

/-- The state at the label `a`, with the buffer. The output of `state` is empty; the
number of rounds tells the allocations apart. -/
structure RenderInto where
  state : RenderState
  buf : Buf
  rounds : Nat
deriving DecidableEq, Repr

/-- One round from the label `a` on. -/
def Template.stepInto (t : Template) (scope : Scope) (blocks : List BlockContext)
    (addr : Nat → Int) (s : RenderInto) : Option (Loop.Next RenderInto Buf) :=
  (t.step scope blocks { s.state with out := [] }).bind fun
    | .goto r => (appendToBuffer s.buf r.out (addr s.rounds)).map fun b =>
        .goto ⟨{ r with out := [] }, b, s.rounds + 1⟩
    | .done out => (appendToBuffer s.buf out (addr s.rounds)).map .done

/-- `tpl_complete` ends with the buffer `b'` when it is given `b`. -/
def TplCompleteInto (t : Template) (scope : Scope) (blocks : List BlockContext)
    (addr : Nat → Int) (b b' : Buf) : Prop :=
  if t.vector = [] then b' = b
  else Loop.Ends (t.stepInto scope blocks addr)
    ⟨⟨0, blocks.map BlockContext.checksum, []⟩, b, 0⟩ b'

/-- A buffer whose length is that of the bytes in it. -/
structure FilledBuf extends Buf where
  filled : curLen = mem.length
  short : curLen < 2 ^ 32

/-- The buffer `b'` holds the bytes behind those of `b`. -/
structure Appended (b b' : Buf) (bytes : List UInt8) : Prop where
  mem : b'.mem = b.mem ++ bytes
  curLen : b'.curLen = b.curLen + bytes.length

section Append

variable {b b' b'' : Buf} {bytes bytes' : List UInt8} {addr : Int}

theorem Appended.trans (h : Appended b b' bytes) (h' : Appended b' b'' bytes') :
    Appended b b'' (bytes ++ bytes') where
  mem := by rw [h'.mem, h.mem, List.append_assoc]
  curLen := by
    rw [h'.curLen, h.curLen, List.length_append]
    omega

theorem Appended.filled (h : Appended b b' bytes) (hb : b.curLen = b.mem.length) :
    b'.curLen = b'.mem.length := by
  rw [h.curLen, h.mem, List.length_append, hb]

/-- The bytes are stored behind those in the buffer. -/
theorem appendToBuffer_eq (hb : b.curLen = b.mem.length)
    (hlt : b.curLen + bytes.length < 2 ^ 32) (addr : Int) :
    ∃ b', appendToBuffer b bytes addr = some b' ∧ Appended b b' bytes := by
  have hcur : (b.expand bytes.length addr).1.curLen = b.mem.length + bytes.length := by
    rw [Buf.expand_curLen, ← Int.natCast_add, uint_natCast hlt, hb]
  have hmem : (b.expand bytes.length addr).1.mem = b.mem := by
    apply Buf.expand_mem
    rw [← Int.natCast_add, uint_natCast hlt]
    omega
  have hplace : uint ((b.expand bytes.length addr).1.curLen - (bytes.length : Int)) =
      (b.expand bytes.length addr).1.mem.length := by
    rw [hcur, hmem, Int.natCast_add, Int.add_sub_cancel, uint_natCast (by omega)]
  have hstore := store_pending (hmem.symm ▸ hcur) bytes
  rw [List.take_length] at hstore
  have happend : appendToBuffer b bytes addr = some
      { (b.expand bytes.length addr).1 with
        mem := (b.expand bytes.length addr).1.mem ++ bytes } := by
    rw [appendToBuffer, hplace]
    exact hstore
  exact ⟨_, happend, by rw [hmem], by rw [hcur, hb]⟩

/-- The length of the buffer stays a `uint`. -/
theorem curLen_lt_of_appendToBuffer (h : appendToBuffer b bytes addr = some b') :
    b'.curLen < 2 ^ 32 := by
  have hcur : (b.expand bytes.length addr).1.curLen < 2 ^ 32 := by
    rw [Buf.expand_curLen]
    exact uint_lt _
  rw [appendToBuffer, Buf.store] at h
  split_ifs at h
  · exact Option.some.inj h ▸ hcur
  · rw [← Option.some.inj h, Buf.write_curLen]
    exact hcur

end Append

section Rounds

variable {t : Template} {scope : Scope} {blocks : List BlockContext} {addr : Nat → Int}

/-- What a round comes to when there was output before. -/
def prependOutput (acc : List UInt8) :
    Loop.Next RenderState (List UInt8) → Loop.Next RenderState (List UInt8)
  | .goto s => .goto { s with out := acc ++ s.out }
  | .done out => .done (acc ++ out)

/-- A round does not depend on the output before it. -/
theorem step_eq_map (pc : Nat) (cs : List Nat) (acc : List UInt8) :
    t.step scope blocks ⟨pc, cs, acc⟩ =
      (t.step scope blocks ⟨pc, cs, []⟩).map (prependOutput acc) := by
  have hadvance : ∀ x, t.advance ⟨pc, cs, acc ++ x⟩ =
      prependOutput acc (t.advance ⟨pc, cs, x⟩) := by
    intro x
    unfold Template.advance
    split <;> rfl
  have hjump : ∀ (cs' : List Nat) (x : List UInt8) (d : Int),
      RenderState.jump ⟨pc, cs', acc ++ x⟩ d =
        (RenderState.jump ⟨pc, cs', x⟩ d).map (prependOutput acc) := by
    intro cs' x d
    unfold RenderState.jump
    split <;> rfl
  have hadvanceNil := hadvance []
  have hjumpNil := hjump cs []
  rw [List.append_nil] at hadvanceNil hjumpNil
  unfold Template.step
  cases t.vector[pc]? with
  | none => rfl
  | some b =>
      by_cases hsum : b.blockChecksum = 0
      · cases he : t.emit scope none b with
        | none => simp [hsum, he]
        | some x => simp [hsum, he, hadvance]
      · cases hi : cs.idxOf? b.blockChecksum with
        | none =>
            by_cases hlen : 0 < b.blockLength
            · simp [hsum, hi, hlen, hjumpNil]
            · simp [hsum, hi, hlen, hadvanceNil]
        | some i =>
            cases he : t.emit scope (blocks[i]?.map BlockContext.vars) b with
            | none => simp [hsum, hi, he]
            | some x =>
                by_cases hback : b.blockLength < 0
                · simp [hsum, hi, he, hback, hjump]
                · by_cases hone : b.blockLength = 1
                  · simp [hsum, hi, he, hone, prependOutput]
                  · simp [hsum, hi, he, hback, hone, hadvance]

variable (addr) in
/-- As long as the length does not overflow, the rounds append the output to the
buffer. -/
theorem run_stepInto {n : Nat} {pc : Nat} {cs : List Nat} {acc out : List UInt8}
    (h : Loop.run (t.step scope blocks) n ⟨pc, cs, acc⟩ = some out) :
    ∃ x, out = acc ++ x ∧ ∀ b k, b.curLen = b.mem.length → b.curLen + x.length < 2 ^ 32 →
      ∃ b', Loop.run (t.stepInto scope blocks addr) n ⟨⟨pc, cs, []⟩, b, k⟩ = some b' ∧
        Appended b b' x := by
  induction n generalizing pc cs acc with
  | zero => simp [Loop.run] at h
  | succ n ih =>
      rw [Loop.run, step_eq_map] at h
      cases hstep : t.step scope blocks ⟨pc, cs, []⟩ with
      | none => simp [hstep] at h
      | some e =>
          cases e with
          | done x =>
              obtain rfl : acc ++ x = out := by simpa [hstep, prependOutput] using h
              refine ⟨x, rfl, ?_⟩
              intro b k hb hlt
              obtain ⟨b', hb', happ⟩ := appendToBuffer_eq hb hlt (addr k)
              exact ⟨b', by simp [Loop.run, Template.stepInto, hstep, hb'], happ⟩
          | goto s =>
              simp only [hstep, Option.map_some, prependOutput] at h
              obtain ⟨x, rfl, hrest⟩ := ih h
              refine ⟨s.out ++ x, by simp, ?_⟩
              intro b k hb hlt
              rw [List.length_append] at hlt
              obtain ⟨b', hb', happ⟩ :=
                appendToBuffer_eq hb (show b.curLen + s.out.length < 2 ^ 32 by omega) (addr k)
              have hlen := happ.curLen
              obtain ⟨b'', hrun, happ'⟩ := hrest b' (k + 1) (happ.filled hb) (by omega)
              refine ⟨b'', ?_, happ.trans happ'⟩
              simpa [Loop.run, Template.stepInto, hstep, hb'] using hrun

variable (addr) in
/-- What is rendered is appended to the buffer. -/
theorem TplComplete.appended {out : List UInt8} (h : TplComplete t scope blocks out) {b : Buf}
    (hb : b.curLen = b.mem.length) (hlt : b.curLen + out.length < 2 ^ 32) :
    ∃ b', TplCompleteInto t scope blocks addr b b' ∧ Appended b b' out := by
  unfold TplComplete at h
  unfold TplCompleteInto
  split_ifs at h ⊢
  · subst h
    exact ⟨b, rfl, by simp, by simp⟩
  · obtain ⟨n, hn⟩ := h
    obtain ⟨x, rfl, hrun⟩ := run_stepInto addr hn
    obtain ⟨b', hb', happ⟩ := hrun b 0 hb hlt
    exact ⟨b', ⟨n, hb'⟩, happ⟩

/-- The buffer that is left has a length that is a `uint`. -/
theorem TplCompleteInto.curLen_lt {b b' : Buf} (h : TplCompleteInto t scope blocks addr b b')
    (hb : b.curLen < 2 ^ 32) : b'.curLen < 2 ^ 32 := by
  unfold TplCompleteInto at h
  split_ifs at h
  · exact h ▸ hb
  · obtain ⟨n, hn⟩ := h
    revert hn
    generalize (⟨⟨0, blocks.map BlockContext.checksum, []⟩, b, 0⟩ : RenderInto) = s
    induction n generalizing s with
    | zero => simp [Loop.run]
    | succ n ih =>
        intro hn
        rw [Loop.run, Template.stepInto] at hn
        cases hstep : t.step scope blocks { s.state with out := [] } with
        | none => simp [hstep] at hn
        | some e =>
            cases e with
            | done x =>
                cases happ : appendToBuffer s.buf x (addr s.rounds) with
                | none => simp [hstep, happ] at hn
                | some c =>
                    obtain rfl : c = b' := by simpa [hstep, happ] using hn
                    exact curLen_lt_of_appendToBuffer happ
            | goto r =>
                cases happ : appendToBuffer s.buf r.out (addr s.rounds) with
                | none => simp [hstep, happ] at hn
                | some c => exact ih _ (by simpa [hstep, happ] using hn)

end Rounds

end OpenTube
