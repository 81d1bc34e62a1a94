import Mathlib.Algebra.GroupWithZero.Nat

/-!
# The Native Embedder

From the texts of a request to the vectors of its chunks: the native embedder, the
route that serves it, and the client that cuts the reply into vectors.

The embedder tokenizes every text, sorts the token sequences by their length, runs
them in sub-batches, alone or padded to one length, and puts every vector back where
its text was. The forward pass, the tokenizer and the arithmetic of the norm are
parameters. The cancellation flag is another party's: `flag n` is what the n-th look
at it finds, and a run counts its looks.

The route writes the vectors one after the other and the client cuts the bytes at
multiples of the length it expects, so nothing but the position ties a vector to
its chunk.

## Main definitions

* `NativeEmbedder`: The embedder and what it rests on.
* `embedBatch`, `embedWithCancel`: From token sequences and texts to vectors.
* `indexEmbed`: The route.
* `embedOneBatch`, `sliceReply`: The client.
-/

namespace Spelunk

/-- A vector of `f32` values, each by its bits. -/
abbrev FloatVec := List UInt32

def maxSeqLen : ℕ := 40960

def embedBatchSize : ℕ := 8

def batchMaxSeq : ℕ := 512

/-- The native embedder: the tokenizer (with its end mark), the forward pass of a matrix
    of tokens to the hidden states of every position of every row, the norm of a vector
    where it is positive, the division by it, whether it runs on the CPU, and the cap
    that was derived from the memory. -/
structure NativeEmbedder where
  encode : String → Except String (List UInt32)
  forward : List (List UInt32) → Except String (List (List FloatVec))
  norm : FloatVec → Option UInt32
  div : UInt32 → UInt32 → UInt32
  cpu : Bool
  tokenCap : ℕ

inductive EmbedError where
  | lockPoisoned
  | tokenization (e : String)
  | emptyTokens
  | inference (e : String)
  | cancelled (completed total : ℕ)
deriving DecidableEq, Repr

def effectiveTokenCap (tokenCap : ℕ) : ℕ :=
  if tokenCap = 0 then maxSeqLen else min tokenCap maxSeqLen

/-- `x.is_finite()`: the exponent is not all ones. -/
def isFinite (x : UInt32) : Bool := x.toNat / 2 ^ 23 % 256 ≠ 255

/-- `slice::chunks`. Every chunk takes at least one element, so as many turns as there are
    elements are enough. -/
def chunksOf {α : Type} (n : ℕ) : ℕ → List α → List (List α)
  | 0, _ => []
  | turns + 1, xs =>
      match xs with
      | [] => []
      | _ => xs.take n :: chunksOf n turns (xs.drop n)

namespace NativeEmbedder

variable (m : NativeEmbedder)

/-- The tokens of a text, up to the cap. -/
def tokenize (text : String) : Except EmbedError (List UInt32) :=
  match m.encode text with
  | .error e => .error (.tokenization e)
  | .ok encoding =>
      let ids := encoding.take (effectiveTokenCap m.tokenCap)
      if ids = [] then .error .emptyTokens else .ok ids

def l2Normalise (v : FloatVec) : FloatVec :=
  match m.norm v with
  | some n => v.map (m.div · n)
  | none => v

/-- The vector of a sequence from the hidden states of its row: the one at its last token,
    normalised, without NaN or infinity. -/
def lastVector (ids : List UInt32) (row : List FloatVec) : Except String FloatVec :=
  match row[ids.length - 1]? with
  | none => .error "index out of range"
  | some last =>
      let v := m.l2Normalise last
      if v.all isFinite then .ok v
      else .error "embedding vector contains NaN/inf — check model weights or sequence length"

/-- The vector of a sequence that runs alone. -/
def vectorAlone (ids : List UInt32) : Except String FloatVec :=
  match m.forward [ids] with
  | .error e => .error e
  | .ok hidden =>
      match hidden[0]? with
      | none => .error "index out of range"
      | some row => m.lastVector ids row

/-- The rows of a batch, padded on the right to the longest. -/
def padRows (batch : List (List UInt32)) : List (List UInt32) :=
  batch.map fun ids => ids ++ List.replicate ((batch.map List.length).foldl max 0 - ids.length) 0

/-- The vectors of the sequences of a batch from the hidden states of its rows. -/
def rowVectors : List (List UInt32) → List (List FloatVec) → Except String (List FloatVec)
  | [], _ => .ok []
  | _ :: _, [] => .error "index out of range"
  | ids :: batch, row :: rows =>
      match m.lastVector ids row with
      | .error e => .error e
      | .ok v =>
          match rowVectors batch rows with
          | .error e => .error e
          | .ok vs => .ok (v :: vs)

/-- `f` for every member, up to the first error. -/
def each {α β ε : Type} (f : α → Except ε β) : List α → Except ε (List β)
  | [] => .ok []
  | a :: as =>
      match f a with
      | .error e => .error e
      | .ok b =>
          match each f as with
          | .error e => .error e
          | .ok bs => .ok (b :: bs)

/-- The sequential path: the flag is looked at before every sequence. -/
def sequential (flag : ℕ → Bool) : List (List UInt32) → ℕ → Except String (List FloatVec) × ℕ
  | [], k => (.ok [], k)
  | ids :: batch, k =>
      if flag k then (.error "embed cancelled mid sub-batch (sequential path)", k + 1)
      else match m.vectorAlone ids with
        | .error e => (.error e, k + 1)
        | .ok v =>
            match sequential flag batch (k + 1) with
            | (.error e, k') => (.error e, k')
            | (.ok vs, k') => (.ok (v :: vs), k')

/-- One sub-batch, with the looks at the flag so far. -/
def embedBatch (flag : ℕ → Bool) (batch : List (List UInt32)) (k : ℕ) :
    Except String (List FloatVec) × ℕ :=
  let maxSeq := (batch.map List.length).foldl max 0
  if batch.length = 1 ∨ m.cpu = false ∨ batchMaxSeq < maxSeq then m.sequential flag batch k
  else match m.forward (padRows batch) with
    | .error e => (.error e, k)
    | .ok hidden => (m.rowVectors batch hidden, k)

/-- Every vector back to its place. -/
def scatter (results : List FloatVec) (placed : List (ℕ × FloatVec)) : List FloatVec :=
  placed.foldl (fun results p => results.set p.1 p.2) results

/-- The loop over the sub-batches. -/
def embedSubBatches (flag : ℕ → Bool) (total : ℕ) : List (List (ℕ × List UInt32)) →
    List FloatVec → ℕ → ℕ → Except EmbedError (List FloatVec) × ℕ
  | [], results, _, k => (.ok results, k)
  | sub :: rest, results, completed, k =>
      if flag k then (.error (.cancelled completed total), k + 1)
      else match m.embedBatch flag (sub.map Prod.snd) (k + 1) with
        | (.error e, k') =>
            (.error (if flag k' then .cancelled completed total else .inference e), k' + 1)
        | (.ok vecs, k') =>
            embedSubBatches flag total rest (scatter results ((sub.map Prod.fst).zip vecs))
              (completed + sub.length) k'

/-- `sort_unstable_by_key` on the length: some arrangement in which the lengths ascend. -/
structure LengthSort where
  sort : List (ℕ × List UInt32) → List (ℕ × List UInt32)
  perm : ∀ l, (sort l).Perm l
  ascending : ∀ l, (sort l).Pairwise fun p q => p.2.length ≤ q.2.length

/-- `embed_with_cancel`, with the looks at the flag. A panic in another call that held the
    lock leaves it poisoned. -/
def embedWithCancel (order : LengthSort) (flag : ℕ → Bool) (poisoned : Bool)
    (texts : List String) : Except EmbedError (List FloatVec) × ℕ :=
  if poisoned then (.error .lockPoisoned, 0)
  else if flag 0 then (.error (.cancelled 0 texts.length), 1)
  else match each m.tokenize texts with
    | .error e => (.error e, 1)
    | .ok idVecs =>
        let indexed := order.sort (idVecs.zipIdx.map fun p => (p.2, p.1))
        m.embedSubBatches flag texts.length (chunksOf embedBatchSize indexed.length indexed)
          (List.replicate texts.length []) 0 1

end NativeEmbedder

/-! ### The route -/

structure EmbedChunkIn where
  chunkId : String
  content : String
deriving DecidableEq, Repr

/-- What `/index/embed` answers. -/
inductive IndexEmbedReply where
  | badSlug
  | payloadTooLarge
  | noEmbedder
  | saturated
  | internal
  | octetStream (bytes : List UInt8)
deriving DecidableEq, Repr

def maxEmbedBatch : ℕ := 256

/-- `f.to_le_bytes()`. -/
def toLeBytes (x : UInt32) : List UInt8 :=
  [x.toNat.toUInt8, (x.toNat / 256).toUInt8, (x.toNat / 65536).toUInt8,
    (x.toNat / 16777216).toUInt8]

/-- `POST /v1/projects/{project_id}/index/embed`: whether the slug is valid, the embedder
    where there is one, and whether the admission queue has room. -/
def indexEmbed (slugOk : Bool)
    (embedder : Option (List String → Except EmbedError (List FloatVec))) (admitted : Bool)
    (chunks : List EmbedChunkIn) : IndexEmbedReply :=
  if !slugOk then .badSlug
  else if maxEmbedBatch < chunks.length then .payloadTooLarge
  else match embedder with
    | none => .noEmbedder
    | some embed =>
        if chunks = [] then .octetStream []
        else if !admitted then .saturated
        else match embed (chunks.map EmbedChunkIn.content) with
          | .error _ => .internal
          | .ok vectors =>
              if vectors.length ≠ chunks.length then .internal
              else .octetStream (vectors.flatMap fun v => v.flatMap toLeBytes)

/-! ### The client -/

def embeddingDim : ℕ := 896

/-- A chunk to embed: its row in the index, and its text. -/
structure ChunkToEmbed where
  rowId : ℕ
  text : String
deriving DecidableEq, Repr

/-- The request for a batch. -/
def embedRequest (batch : List ChunkToEmbed) : List EmbedChunkIn :=
  batch.map fun c => ⟨toString c.rowId, c.text⟩

/-- What the client takes of a reply: bytes of the length it expects. -/
def embedOneBatch (reply : IndexEmbedReply) (batchLen : ℕ) : Option (List UInt8) :=
  match reply with
  | .octetStream bytes =>
      if bytes.length ≠ batchLen * (embeddingDim * 4) then none else some bytes
  | _ => none

/-- `f32::from_le_bytes`. -/
def fromLeBytes (a b c d : UInt8) : UInt32 :=
  UInt32.ofNat (a.toNat + 256 * b.toNat + 65536 * c.toNat + 16777216 * d.toNat)

def blobToVec : List UInt8 → FloatVec
  | a :: b :: c :: d :: rest => fromLeBytes a b c d :: blobToVec rest
  | _ => []

/-- The rows with their vectors, cut out of the bytes by position. -/
def sliceReply (bytes : List UInt8) (batch : List ChunkToEmbed) : List (ℕ × FloatVec) :=
  batch.zipIdx.map fun (c, i) =>
    (c.rowId, blobToVec ((bytes.drop (i * (embeddingDim * 4))).take (embeddingDim * 4)))

end Spelunk
