import OpenTube.Common.Chars
import OpenTube.Lib.BlockHash
import OpenTube.Lib.CString

/-!
# The message digest of the web utilities

`web/utils/sha1.c` collects a message in a block of 64 bytes and compresses the
block whenever it is full. The message is padded in the same block: with one bit,
with zeros up to the place of the length, in the next block if the length does not
fit behind the message, and with the length in bits. A write outside of the block
has no value.
-/

namespace OpenTube

/-! ## The compression -/

/-- `SHA1CircularShift`. -/
def sha1CircularShift (bits word : UInt32) : UInt32 :=
  (word <<< bits) ||| (word >>> (32 - bits))

/-- `Intermediate_Hash`, and the variables `A` to `E`. -/
structure Sha1Hash where
  a : UInt32
  b : UInt32
  c : UInt32
  d : UInt32
  e : UInt32
deriving DecidableEq, Repr

/-- The values of `SHA1Reset`. -/
def sha1InitialHash : Sha1Hash :=
  ⟨0x67452301, 0xEFCDAB89, 0x98BADCFE, 0x10325476, 0xC3D2E1F0⟩

/-- Four bytes, the highest first. -/
def wordOfBytes (b0 b1 b2 b3 : UInt8) : UInt32 :=
  (b0.toUInt32 <<< 24) ||| (b1.toUInt32 <<< 16) ||| (b2.toUInt32 <<< 8) ||| b3.toUInt32

/-- The words of a block. -/
def wordsOfBytes : List UInt8 → List UInt32
  | b0 :: b1 :: b2 :: b3 :: l => wordOfBytes b0 b1 b2 b3 :: wordsOfBytes l
  | _ => []

/-- `W`: the next word, from those before it. -/
def sha1NextWord (w : List UInt32) : UInt32 :=
  let at' := fun i => w.getD (w.length - i) 0
  sha1CircularShift 1 (at' 3 ^^^ at' 8 ^^^ at' 14 ^^^ at' 16)

/-- The eighty words of a block. -/
def sha1Schedule (block : List UInt8) : List UInt32 :=
  (List.range 64).foldl (fun w _ => w ++ [sha1NextWord w]) (wordsOfBytes block)

/-- One turn of a loop of `SHA1ProcessMessageBlock`, with what is computed from `B`, `C`
and `D` and with the constant of the loop. -/
def sha1Round (f : UInt32 → UInt32 → UInt32 → UInt32) (k : UInt32) (s : Sha1Hash)
    (w : UInt32) : Sha1Hash :=
  let temp := sha1CircularShift 5 s.a + f s.b s.c s.d + s.e + w + k
  ⟨temp, s.a, sha1CircularShift 30 s.b, s.c, s.d⟩

/-- The four loops of `SHA1ProcessMessageBlock`. -/
def sha1Rounds (w : List UInt32) (s : Sha1Hash) : Sha1Hash :=
  let choose := fun b c d => (b &&& c) ||| (~~~b &&& d)
  let parity := fun b c d => b ^^^ c ^^^ d
  let majority := fun b c d => (b &&& c) ||| (b &&& d) ||| (c &&& d)
  let s := (w.take 20).foldl (sha1Round choose 0x5A827999) s
  let s := ((w.drop 20).take 20).foldl (sha1Round parity 0x6ED9EBA1) s
  let s := ((w.drop 40).take 20).foldl (sha1Round majority 0x8F1BBCDC) s
  (w.drop 60).foldl (sha1Round parity 0xCA62C1D6) s

/-- `Intermediate_Hash` behind `SHA1ProcessMessageBlock`. -/
def sha1Compress (h : Sha1Hash) (block : List UInt8) : Sha1Hash :=
  let s := sha1Rounds (sha1Schedule block) h
  ⟨h.a + s.a, h.b + s.b, h.c + s.c, h.d + s.d, h.e + s.e⟩

/-! ## The context -/

/-- `SHA1Context`. -/
structure Sha1Context where
  intermediateHash : Sha1Hash
  lengthLow : UInt32
  lengthHigh : UInt32
  messageBlockIndex : Nat
  messageBlock : List UInt8
  computed : Bool
  corrupted : Bool

namespace Sha1Context

/-- `SHA1ProcessMessageBlock`. -/
def processMessageBlock (ctx : Sha1Context) : Sha1Context :=
  { ctx with
    intermediateHash := sha1Compress ctx.intermediateHash ctx.messageBlock
    messageBlockIndex := 0 }

/-- `Message_Block[Message_Block_Index++] = c`, for several bytes. -/
def writes (ctx : Sha1Context) (l : List UInt8) : Option Sha1Context :=
  (CString.write 64 ctx.messageBlock ctx.messageBlockIndex l).map fun block =>
    { ctx with messageBlock := block, messageBlockIndex := ctx.messageBlockIndex + l.length }

/-- The loops that write zeros while the index is below `n`. -/
def zerosTo (ctx : Sha1Context) (n : Nat) : Option Sha1Context :=
  ctx.writes (List.replicate (n - ctx.messageBlockIndex) 0)

/-- `Message_Block[56]` to `Message_Block[63]`. -/
def lengthBytes (ctx : Sha1Context) : List UInt8 :=
  [(ctx.lengthHigh >>> 24).toUInt8, (ctx.lengthHigh >>> 16).toUInt8,
    (ctx.lengthHigh >>> 8).toUInt8, ctx.lengthHigh.toUInt8, (ctx.lengthLow >>> 24).toUInt8,
    (ctx.lengthLow >>> 16).toUInt8, (ctx.lengthLow >>> 8).toUInt8, ctx.lengthLow.toUInt8]

/-- `SHA1PadMessage`. -/
def padMessage (ctx : Sha1Context) : Option Sha1Context := do
  let ctx ←
    if ctx.messageBlockIndex > 55 then do
      let ctx ← ctx.writes [0x80]
      let ctx ← ctx.zerosTo 64
      ctx.processMessageBlock.zerosTo 56
    else do
      let ctx ← ctx.writes [0x80]
      ctx.zerosTo 56
  let block ← CString.write 64 ctx.messageBlock 56 ctx.lengthBytes
  return { ctx with messageBlock := block }.processMessageBlock

/-- The lengths and the flag behind one more byte. -/
def count (ctx : Sha1Context) : Sha1Context :=
  let low := ctx.lengthLow + 8
  if low = 0 then
    let high := ctx.lengthHigh + 1
    { ctx with
      lengthLow := low
      lengthHigh := high
      corrupted := if high = 0 then true else ctx.corrupted }
  else { ctx with lengthLow := low }

/-- `SHA1Input`. -/
def input : List UInt8 → Sha1Context → Option Sha1Context
  | [], ctx => some ctx
  | c :: message, ctx =>
      if ctx.corrupted then some ctx
      else (ctx.writes [c]).bind fun ctx =>
        input message
          (if ctx.messageBlockIndex = 64 then ctx.count.processMessageBlock else ctx.count)

/-- The bytes of a word, the highest first. -/
def wordBytes (w : UInt32) : List UInt8 :=
  [(w >>> 24).toUInt8, (w >>> 16).toUInt8, (w >>> 8).toUInt8, w.toUInt8]

/-- `Message_Digest`. -/
def digest (h : Sha1Hash) : List UInt8 :=
  wordBytes h.a ++ wordBytes h.b ++ wordBytes h.c ++ wordBytes h.d ++ wordBytes h.e

/-- The context when the digest was computed: the message is cleared. -/
def finish (ctx : Sha1Context) : Sha1Context :=
  { ctx with
    messageBlock := ctx.messageBlock.map fun _ => 0
    lengthLow := 0
    lengthHigh := 0
    computed := true }

/-- `SHA1Result`. -/
def result (ctx : Sha1Context) : Option (Sha1Context × List UInt8) :=
  if ctx.computed then some (ctx, digest ctx.intermediateHash)
  else ctx.padMessage.map fun ctx => (ctx.finish, digest ctx.intermediateHash)

end Sha1Context

/-- A number in eight bytes, the highest first. -/
def eightBytes (n : Nat) : List UInt8 :=
  (List.range 8).reverse.map fun i => UInt8.ofNat (n / 256 ^ i)

theorem eightBytes_eq (n : Nat) : eightBytes n = [UInt8.ofNat (n / 256 ^ 7),
    UInt8.ofNat (n / 256 ^ 6), UInt8.ofNat (n / 256 ^ 5), UInt8.ofNat (n / 256 ^ 4),
    UInt8.ofNat (n / 256 ^ 3), UInt8.ofNat (n / 256 ^ 2), UInt8.ofNat (n / 256 ^ 1),
    UInt8.ofNat (n / 256 ^ 0)] := rfl

/-- The message with one bit, zeros and its length in bits behind it. -/
def sha1Pad (m : List UInt8) : List UInt8 :=
  m ++ 0x80 :: (List.replicate ((119 - m.length % 64) % 64) 0 ++ eightBytes (8 * m.length))

namespace Sha1Context

open BlockHash

variable {ctx : Sha1Context} {bs : List (List UInt8)} {pending l : List UInt8}

theorem writes_eq {a m b : List UInt8} (hblock : ctx.messageBlock = a ++ (m ++ b))
    (hindex : ctx.messageBlockIndex = a.length) (hm : m.length = l.length)
    (h : a.length + l.length ≤ 64) :
    ctx.writes l = some { ctx with
      messageBlock := a ++ (l ++ b)
      messageBlockIndex := a.length + l.length } := by
  rw [writes, hblock, hindex, CString.write_eq hm h]
  rfl

/-- The context has compressed the blocks `bs` and collected `pending`. -/
structure Collects (ctx : Sha1Context) (bs : List (List UInt8)) (pending : List UInt8) :
    Prop where
  blocks : Blocks 64 bs
  le : pending.length ≤ 64
  index : ctx.messageBlockIndex = pending.length
  block : ctx.messageBlock.length = 64 ∧ ∃ back, ctx.messageBlock = pending ++ back
  hash : ctx.intermediateHash = bs.foldl sha1Compress sha1InitialHash
  length : ctx.lengthHigh.toNat * 2 ^ 32 + ctx.lengthLow.toNat =
    8 * (bs.flatten.length + pending.length)
  computed : ctx.computed = false
  corrupted : ctx.corrupted = false

/-- The lengths of the context are one number. -/
theorem length_count {n : Nat} (h : ctx.lengthHigh.toNat * 2 ^ 32 + ctx.lengthLow.toNat = 8 * n)
    (hn : n + 1 < 2 ^ 61) :
    ctx.count.lengthHigh.toNat * 2 ^ 32 + ctx.count.lengthLow.toNat = 8 * (n + 1) ∧
      ctx.count.corrupted = ctx.corrupted := by
  have hlow := ctx.lengthLow.toNat_lt
  have hadd : (ctx.lengthLow + 8).toNat = (ctx.lengthLow.toNat + 8) % 2 ^ 32 :=
    UInt32.toNat_add _ _
  have hhigh : (ctx.lengthHigh + 1).toNat = (ctx.lengthHigh.toNat + 1) % 2 ^ 32 :=
    UInt32.toNat_add _ _
  rw [count]
  dsimp only
  by_cases hzero : ctx.lengthLow + 8 = 0
  · have hlast : ctx.lengthLow.toNat + 8 = 2 ^ 32 := by
      rw [hzero, UInt32.toNat_zero] at hadd
      omega
    have hsum : ctx.lengthHigh.toNat * 2 ^ 32 + 2 ^ 32 = 8 * (n + 1) := by omega
    -- the flag would be raised by the last bit only
    have hlt : ctx.lengthHigh.toNat + 1 < 2 ^ 32 := by omega
    rw [Nat.mod_eq_of_lt hlt] at hhigh
    have hne : ctx.lengthHigh + 1 ≠ 0 := by
      intro h0
      rw [h0, UInt32.toNat_zero] at hhigh
      omega
    rw [if_pos hzero, if_neg hne]
    refine ⟨?_, rfl⟩
    dsimp only
    rw [hzero, hhigh, UInt32.toNat_zero, Nat.add_mul, Nat.one_mul, Nat.add_zero, hsum]
  · have hne : (ctx.lengthLow + 8).toNat ≠ 0 := fun h0 => hzero (UInt32.toNat_inj.1 h0)
    rw [if_neg hzero]
    refine ⟨?_, rfl⟩
    dsimp only
    rw [hadd] at hne ⊢
    omega

/-- Counting changes nothing else. -/
theorem count_fields (ctx : Sha1Context) :
    ctx.count.intermediateHash = ctx.intermediateHash ∧
      ctx.count.messageBlock = ctx.messageBlock ∧
      ctx.count.messageBlockIndex = ctx.messageBlockIndex ∧
      ctx.count.computed = ctx.computed := by
  rw [count]
  dsimp only
  split <;> exact ⟨rfl, rfl, rfl, rfl⟩

/-- One byte is written behind those of the block. -/
theorem Collects.write (h : ctx.Collects bs pending) (hlt : pending.length < 64) (c : UInt8) :
    ∃ block, ctx.writes [c] = some { ctx with
        messageBlock := block
        messageBlockIndex := pending.length + 1 } ∧
      block.length = 64 ∧ ∃ back, block = (pending ++ [c]) ++ back := by
  obtain ⟨hlen, back, hback⟩ := h.block
  have hpos : back.length = 63 - pending.length + 1 := by
    rw [hback, List.length_append] at hlen
    omega
  obtain ⟨d, back, rfl⟩ := List.exists_of_length_succ back hpos
  refine ⟨pending ++ ([c] ++ back), writes_eq (m := [d]) hback h.index rfl ?_, ?_, back, ?_⟩
  · rw [List.length_singleton]
    omega
  · rw [hback] at hlen
    simpa using hlen
  · rw [List.append_assoc]

theorem Collects.put (h : ctx.Collects bs pending) (hlt : pending.length < 64)
    (hn : bs.flatten.length + pending.length + 1 < 2 ^ 61) (c : UInt8) :
    ∃ x : Sha1Context, ctx.writes [c] = some x ∧ x.messageBlockIndex = pending.length + 1 ∧
      x.count.Collects bs (pending ++ [c]) := by
  obtain ⟨block, hwrite, hlen, hback⟩ := h.write hlt c
  obtain ⟨hhash, hblock, hindex, hcomputed⟩ := count_fields { ctx with
    messageBlock := block
    messageBlockIndex := pending.length + 1 }
  obtain ⟨hlength, hcorrupted⟩ := @length_count { ctx with
    messageBlock := block
    messageBlockIndex := pending.length + 1 } _ h.length hn
  refine ⟨_, hwrite, rfl, h.blocks, ?_, ?_, ?_, hhash.trans h.hash, ?_,
    hcomputed.trans h.computed, hcorrupted.trans h.corrupted⟩
  · rw [List.length_append, List.length_singleton]
    exact hlt
  · rw [hindex, List.length_append, List.length_singleton]
  · rw [hblock]
    exact ⟨hlen, hback⟩
  · rw [hlength, List.length_append, List.length_singleton, Nat.add_assoc]

/-- A full block is compressed. -/
theorem Collects.process (h : ctx.Collects bs pending) (hfull : pending.length = 64) :
    ctx.processMessageBlock.Collects (bs ++ [pending]) [] := by
  obtain ⟨hlen, back, hback⟩ := h.block
  have hblock : ctx.messageBlock = pending := by
    rw [hback, List.length_append] at hlen
    obtain rfl : back = [] := List.length_eq_zero_iff.1 (by omega)
    rw [hback, List.append_nil]
  have hhash : sha1Compress ctx.intermediateHash ctx.messageBlock =
      (bs ++ [pending]).foldl sha1Compress sha1InitialHash := by
    rw [List.foldl_append, ← h.hash, hblock, List.foldl_cons, List.foldl_nil]
  have hlength : ctx.lengthHigh.toNat * 2 ^ 32 + ctx.lengthLow.toNat =
      8 * ((bs ++ [pending]).flatten.length + ([] : List UInt8).length) := by
    rw [List.flatten_append, List.flatten_singleton, List.length_append, List.length_nil,
      Nat.add_zero]
    exact h.length
  rw [processMessageBlock]
  exact ⟨h.blocks.concat hfull, Nat.zero_le 64, rfl, ⟨hlen, ctx.messageBlock, rfl⟩, hhash, hlength,
    h.computed, h.corrupted⟩

/-- The context behind one byte: the block is compressed when it is full. -/
theorem Collects.step (h : ctx.Collects bs pending) (hlt : pending.length < 64)
    (hn : bs.flatten.length + pending.length + 1 < 2 ^ 61) (c : UInt8) :
    ∃ (ctx' : Sha1Context) (bs' : List (List UInt8)) (pending' : List UInt8),
      (∀ message, ctx.input (c :: message) = ctx'.input message) ∧ ctx'.Collects bs' pending' ∧
        pending'.length < 64 ∧ bs'.flatten ++ pending' = bs.flatten ++ pending ++ [c] := by
  obtain ⟨x, hwrite, hindex, hcollects⟩ := h.put hlt hn c
  have hinput : ∀ message, ctx.input (c :: message) =
      (if pending.length + 1 = 64 then x.count.processMessageBlock else x.count).input
        message := fun message => by
    rw [input, h.corrupted, hwrite, ← hindex]
    rfl
  have hlen : (pending ++ [c]).length = pending.length + 1 := by
    rw [List.length_append, List.length_singleton]
  by_cases hfull : pending.length + 1 = 64
  · refine ⟨x.count.processMessageBlock, bs ++ [pending ++ [c]], [], fun message => ?_,
      hcollects.process (hlen.trans hfull), Nat.zero_lt_succ 63, by simp⟩
    rw [hinput, if_pos hfull]
  · refine ⟨x.count, bs, pending ++ [c], fun message => ?_, hcollects, ?_, by simp⟩
    · rw [hinput, if_neg hfull]
    · omega

/-- A message that is put in is collected. -/
theorem Collects.input (h : ctx.Collects bs pending) (hlt : pending.length < 64)
    (message : List UInt8)
    (hn : bs.flatten.length + pending.length + message.length < 2 ^ 61) :
    ∃ (ctx' : Sha1Context) (bs' : List (List UInt8)) (pending' : List UInt8),
      ctx.input message = some ctx' ∧ ctx'.Collects bs' pending' ∧ pending'.length < 64 ∧
        bs'.flatten ++ pending' = bs.flatten ++ pending ++ message := by
  induction message generalizing ctx bs pending with
  | nil => exact ⟨ctx, bs, pending, rfl, h, hlt, (List.append_nil _).symm⟩
  | cons c message ih =>
      rw [List.length_cons] at hn
      obtain ⟨ctx', bs', pending', hstep, hctx', hlt', htext⟩ := h.step hlt (by omega) c
      have hlen := congrArg List.length htext
      simp only [List.length_append, List.length_singleton] at hlen
      obtain ⟨u, vs, rest, hu, hcollects, hless, hrest⟩ := ih hctx' hlt' (by omega)
      refine ⟨u, vs, rest, (hstep message).trans hu, hcollects, hless, ?_⟩
      rw [hrest, htext, List.append_assoc, List.singleton_append]

/-! ## Padding -/

theorem lengthBytes_eq {n : Nat}
    (h : ctx.lengthHigh.toNat * 2 ^ 32 + ctx.lengthLow.toNat = n) :
    ctx.lengthBytes = eightBytes n := by
  have hlow := ctx.lengthLow.toNat_lt
  have hhigh : ctx.lengthHigh.toNat = n / 2 ^ 32 := by omega
  have hmod : ctx.lengthLow.toNat = n % 2 ^ 32 := by omega
  simp only [lengthBytes, eightBytes_eq, List.cons.injEq, and_true]
  refine ⟨?_, ?_, ?_, ?_, ?_, ?_, ?_, ?_⟩ <;> rw [← UInt8.toNat_inj] <;>
    simp [Nat.shiftRight_eq_div_pow, hhigh, hmod] <;> omega

/-- The bit behind the message and zeros up to the place `n`. -/
theorem Collects.mark (h : ctx.Collects bs pending) {n : Nat} (hlt : pending.length < n)
    (hn : n ≤ 64) :
    ∃ back : List UInt8, ((ctx.writes [0x80]).bind fun ctx => ctx.zerosTo n) = some { ctx with
        messageBlock := pending ++ 0x80 :: List.replicate (n - (pending.length + 1)) 0 ++ back
        messageBlockIndex := n } ∧
      n + back.length = 64 := by
  obtain ⟨hlen, back, hback⟩ := h.block
  rw [hback, List.length_append] at hlen
  obtain ⟨d, back, rfl⟩ := List.exists_of_length_succ (n := 63 - pending.length) back (by omega)
  rw [List.length_cons] at hlen
  have hbit := writes_eq (l := [0x80]) (m := [d]) (b := back) hback h.index rfl (by
    rw [List.length_singleton]
    omega)
  obtain ⟨k, hk⟩ : ∃ k, k = n - (pending.length + 1) := ⟨_, rfl⟩
  have hzeros := @writes_eq { ctx with
      messageBlock := pending ++ ([0x80] ++ back)
      messageBlockIndex := pending.length + [(0x80 : UInt8)].length }
    (List.replicate k 0) (pending ++ [0x80]) (back.take k) (back.drop k)
    (by rw [List.take_append_drop, List.append_assoc]) (by rw [List.length_append])
    (by rw [List.length_take, List.length_replicate]; omega)
    (by rw [List.length_append, List.length_singleton, List.length_replicate]; omega)
  have hindex :
      (pending ++ [(0x80 : UInt8)]).length + (List.replicate k (0 : UInt8)).length = n := by
    rw [List.length_append, List.length_singleton, List.length_replicate]
    omega
  rw [hindex] at hzeros
  refine ⟨back.drop k, ?_, ?_⟩
  · rw [hbit, Option.bind_some, zerosTo, List.length_singleton, ← hk]
    refine hzeros.trans ?_
    simp only [List.append_assoc, List.cons_append, List.nil_append]
  · rw [List.length_drop]
    omega

/-- The length is written behind the rest of the last block, which is compressed. -/
theorem processLast {back bytes : List UInt8} (hbs : Blocks 64 bs) (hl : l.length = 56)
    (hback : l.length + back.length = 64) (hblock : ctx.messageBlock = l ++ back)
    (hhash : ctx.intermediateHash = bs.foldl sha1Compress sha1InitialHash)
    (hbytes : ctx.lengthBytes = bytes) :
    ∃ ctx' : Sha1Context, ((CString.write 64 ctx.messageBlock 56 ctx.lengthBytes).bind fun block =>
        some { ctx with messageBlock := block }.processMessageBlock) = some ctx' ∧
      Blocks 64 (bs ++ [l ++ bytes]) ∧
      ctx'.intermediateHash = (bs ++ [l ++ bytes]).foldl sha1Compress sha1InitialHash := by
  have hlength : ctx.lengthBytes.length = 8 := rfl
  have hwrite := @CString.write_eq _ 64 l [] back ctx.lengthBytes (by omega) (by omega)
  rw [List.append_nil, List.append_nil, hl, ← hblock] at hwrite
  rw [hwrite, Option.bind_some]
  refine ⟨_, rfl, hbs.concat ?_, ?_⟩
  · rw [List.length_append, hl, ← hbytes, hlength]
  · rw [processMessageBlock, List.foldl_append, List.foldl_cons, List.foldl_nil, ← hhash, hbytes]

theorem sha1Pad_append (hbs : Blocks 64 bs) (pending : List UInt8) :
    sha1Pad (bs.flatten ++ pending) = bs.flatten ++ (pending ++ 0x80 ::
      (List.replicate ((119 - pending.length % 64) % 64) 0 ++
        eightBytes (8 * (bs.flatten.length + pending.length)))) := by
  have hmod : (bs.flatten ++ pending).length % 64 = pending.length % 64 := by
    rw [List.length_append, hbs.length_flatten, Nat.mul_add_mod]
  rw [sha1Pad, hmod, List.length_append, List.append_assoc]

/-- The message is padded to whole blocks, which are compressed. -/
theorem Collects.padMessage (h : ctx.Collects bs pending) (hlt : pending.length < 64) :
    ∃ (ctx' : Sha1Context) (vs : List (List UInt8)), ctx.padMessage = some ctx' ∧
      Blocks 64 vs ∧ vs.flatten = sha1Pad (bs.flatten ++ pending) ∧
        ctx'.intermediateHash = vs.foldl sha1Compress sha1InitialHash := by
  have hbytes := lengthBytes_eq h.length
  have hpad := sha1Pad_append h.blocks pending
  rw [Nat.mod_eq_of_lt hlt] at hpad
  by_cases hlate : ctx.messageBlockIndex > 55
  · -- the length does not fit behind the message: zeros up to it in one more block
    obtain ⟨back, hmark, hback⟩ := h.mark hlt (Nat.le_refl 64)
    obtain rfl : back = [] := List.length_eq_zero_iff.1 (by omega)
    rw [List.append_nil] at hmark
    have hpos := h.index ▸ hlate
    obtain ⟨block, hblock⟩ : ∃ block : List UInt8,
        block = pending ++ 0x80 :: List.replicate (64 - (pending.length + 1)) 0 := ⟨_, rfl⟩
    have hfull : block.length = 64 := by
      rw [hblock, List.length_append, List.length_cons, List.length_replicate]
      omega
    rw [← hblock] at hmark
    obtain ⟨x, hx⟩ : ∃ x : Sha1Context, x = Sha1Context.processMessageBlock { ctx with
        messageBlock := block
        messageBlockIndex := 64 } := ⟨_, rfl⟩
    have hzeros : x.zerosTo 56 = some { x with
        messageBlock := List.replicate 56 0 ++ block.drop 56
        messageBlockIndex := 56 } := by
      have hindex : x.messageBlockIndex = 0 := by rw [hx, processMessageBlock]
      have hsplit : x.messageBlock = [] ++ (block.take 56 ++ block.drop 56) := by
        rw [hx, processMessageBlock, List.nil_append, List.take_append_drop]
      have hzeros := writes_eq (l := List.replicate 56 0) hsplit hindex
        (by rw [List.length_take, hfull]; rfl) (by rw [List.length_replicate]; decide)
      rw [zerosTo, hindex, hzeros]
      rfl
    have hlengths : Sha1Context.lengthBytes { x with
        messageBlock := List.replicate 56 0 ++ block.drop 56
        messageBlockIndex := 56 } = eightBytes (8 * (bs.flatten.length + pending.length)) := by
      rw [← hbytes]
      simp only [hx, processMessageBlock, lengthBytes]
    obtain ⟨ctx', hlast, hblocks, hhash⟩ := @processLast { x with
        messageBlock := List.replicate 56 0 ++ block.drop 56
        messageBlockIndex := 56 } (bs ++ [block]) _ (block.drop 56) _ (h.blocks.concat hfull)
      List.length_replicate (by rw [List.length_replicate, List.length_drop, hfull]) rfl (by
        rw [hx, processMessageBlock, List.foldl_append, List.foldl_cons, List.foldl_nil, ← h.hash])
      hlengths
    refine ⟨ctx', _, ?_, hblocks, ?_, hhash⟩
    · rw [Sha1Context.padMessage, if_pos hlate]
      simp only [bind]
      rw [← Option.bind_assoc, hmark, Option.bind_some, ← hx, hzeros]
      exact hlast
    · have hcount : (119 - pending.length) % 64 = 64 - (pending.length + 1) + 56 := by omega
      rw [hpad, hcount, List.replicate_add]
      simp only [List.flatten_append, List.flatten_cons, List.flatten_nil, List.append_assoc,
        List.cons_append, List.nil_append, List.append_nil, hblock]
  · have hpos : pending.length ≤ 55 := h.index ▸ Nat.le_of_not_gt hlate
    obtain ⟨back, hmark, hback⟩ := h.mark (n := 56) (by omega) (by omega)
    obtain ⟨k, hk⟩ : ∃ k, k = 56 - (pending.length + 1) := ⟨_, rfl⟩
    rw [← hk] at hmark
    have hfront : (pending ++ 0x80 :: List.replicate k 0).length = 56 := by
      rw [List.length_append, List.length_cons, List.length_replicate]
      omega
    obtain ⟨ctx', hlast, hblocks, hhash⟩ := @processLast { ctx with
        messageBlock := pending ++ 0x80 :: List.replicate k 0 ++ back
        messageBlockIndex := 56 } bs _ back _ h.blocks hfront (by omega) rfl h.hash hbytes
    refine ⟨ctx', _, ?_, hblocks, ?_, hhash⟩
    · rw [Sha1Context.padMessage, if_neg hlate]
      simp only [bind]
      rw [← Option.bind_assoc, hmark]
      exact hlast
    · have hzeros : (119 - pending.length) % 64 = k := by omega
      rw [hpad, hzeros, List.flatten_append, List.flatten_singleton, List.append_assoc pending,
        List.cons_append]

end Sha1Context

/-! ## The digest -/

open Sha1Context BlockHash

end OpenTube
