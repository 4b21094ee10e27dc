import Ifj24.Text.Bytes

/-!
The BLAKE3 hash of a text. The text is cut into chunks, which are the leaves of a
binary tree; a compression of two nodes is the node above them, and the root gives
the hash.
-/

namespace Ifj24.Blake3

abbrev Words (n : Nat) := Vector UInt32 n

def start : Words 8 :=
  #v[0x6A09E667, 0xBB67AE85, 0x3C6EF372, 0xA54FF53A, 0x510E527F, 0x9B05688C, 0x1F83D9AB, 0x5BE0CD19]

def rotateRight (x n : UInt32) : UInt32 := (x >>> n) ||| (x <<< (32 - n))

/-- Mixes two words of a message into four words of a state. -/
def mix (s : Words 16) (a b c d : Fin 16) (x y : UInt32) : Words 16 :=
  let va := s[a] + s[b] + x
  let vd := rotateRight (s[d] ^^^ va) 16
  let vc := s[c] + vd
  let vb := rotateRight (s[b] ^^^ vc) 12
  let va := va + vb + y
  let vd := rotateRight (vd ^^^ va) 8
  let vc := vc + vd
  let vb := rotateRight (vb ^^^ vc) 7
  (((s.set a va).set b vb).set c vc).set d vd

/-- Mixes a message into the columns of a state and then into its diagonals. -/
def round (s m : Words 16) : Words 16 :=
  let s := mix s 0 4 8 12 m[0] m[1]
  let s := mix s 1 5 9 13 m[2] m[3]
  let s := mix s 2 6 10 14 m[4] m[5]
  let s := mix s 3 7 11 15 m[6] m[7]
  let s := mix s 0 5 10 15 m[8] m[9]
  let s := mix s 1 6 11 12 m[10] m[11]
  let s := mix s 2 7 8 13 m[12] m[13]
  mix s 3 4 9 14 m[14] m[15]

/-- The order of the words of a message in the next round. -/
def permute (m : Words 16) : Words 16 :=
  #v[m[2], m[6], m[3], m[10], m[7], m[0], m[4], m[13], m[1], m[11], m[12], m[5], m[9], m[14],
    m[15], m[8]]

def rounds : Nat → Words 16 → Words 16 → Words 16
  | 0, s, _ => s
  | n + 1, s, m => rounds n (round s m) (permute m)

structure Node where
  chaining : Words 8
  message : Words 16
  counter : UInt64
  length : UInt32
  flags : UInt32

def chunkStart : UInt32 := 1

def chunkEnd : UInt32 := 2

def parentFlag : UInt32 := 4

def rootFlag : UInt32 := 8

namespace Node

def compress (n : Node) : Words 8 :=
  let h := n.chaining
  let s : Words 16 :=
    #v[h[0], h[1], h[2], h[3], h[4], h[5], h[6], h[7], start[0], start[1], start[2], start[3],
      n.counter.toUInt32, (n.counter >>> 32).toUInt32, n.length, n.flags]
  let s := rounds 7 s n.message
  .ofFn fun (i : Fin 8) => s[i.val] ^^^ s[i.val + 8]

def parent (left right : Node) : Node :=
  { chaining := start
    message := left.compress ++ right.compress
    counter := 0
    length := 64
    flags := parentFlag }

end Node

/-- The word at the start of a text, the lowest byte first. What is missing is
zero. -/
def word (bytes : Bytes) : UInt32 :=
  match bytes with
  | [] => 0
  | [a] => a.toUInt32
  | [a, b] => a.toUInt32 ||| (b.toUInt32 <<< 8)
  | [a, b, c] => a.toUInt32 ||| (b.toUInt32 <<< 8) ||| (c.toUInt32 <<< 16)
  | a :: b :: c :: d :: _ =>
    a.toUInt32 ||| (b.toUInt32 <<< 8) ||| (c.toUInt32 <<< 16) ||| (d.toUInt32 <<< 24)

def message (block : Bytes) : Words 16 := .ofFn fun i => word (block.drop (4 * i.val))

def blockNode (chaining : Words 8) (counter : UInt64) (flags : UInt32) (block : Bytes) : Node :=
  { chaining, message := message block, counter, length := block.length.toUInt32, flags }

/-- The node of a chunk: its last block, after the compression of the others. -/
def chunkNode (counter : UInt64) (chaining : Words 8) (flags : UInt32) :
    List Bytes → Node
  | [] => blockNode chaining counter (flags ||| chunkEnd) []
  | [block] => blockNode chaining counter (flags ||| chunkEnd) block
  | block :: rest =>
    chunkNode counter (blockNode chaining counter flags block).compress 0 rest

/-- Pieces of a size, of which the last one may be shorter. -/
def pieces (size : Nat) (positive : 0 < size) (bytes : Bytes) : List Bytes :=
  match bytes with
  | [] => []
  | b :: rest =>
    (b :: rest).take size :: pieces size positive ((b :: rest).drop size)
termination_by bytes.length
decreasing_by simp; omega

def chunk (number : Nat) (bytes : Bytes) : Node :=
  chunkNode number.toUInt64 start chunkStart (pieces 64 (by decide) bytes)

/-- The leaves of the tree; an empty text is a chunk as well. -/
def leaves (bytes : Bytes) : List Node :=
  match pieces 1024 (by decide) bytes with
  | [] => [chunk 0 []]
  | chunks => chunks.zipIdx.map fun (c, i) => chunk i c

/-- The nodes above a row of nodes. One without a partner goes up as it is. -/
def above : List Node → List Node
  | left :: right :: rest => left.parent right :: above rest
  | rest => rest

theorem length_above (nodes : List Node) : (above nodes).length = (nodes.length + 1) / 2 := by
  fun_induction above nodes with
  | case1 left right rest ih => simp only [List.length_cons, ih]; omega
  | case2 rest h =>
    match rest, h with
    | [], _ => rfl
    | [_], _ => simp
    | a :: b :: r, h => exact absurd rfl (h a b r)

def root (nodes : List Node) : Option Node :=
  match nodes with
  | [] => none
  | [node] => some node
  | a :: b :: rest => root (above (a :: b :: rest))
termination_by nodes.length
decreasing_by rw [length_above]; simp; omega

def wordBytes (w : UInt32) : Bytes :=
  [w.toUInt8, (w >>> 8).toUInt8, (w >>> 16).toUInt8, (w >>> 24).toUInt8]

def hash (bytes : Bytes) : Bytes :=
  match root (leaves bytes) with
  | none => []
  | some node => { node with flags := node.flags ||| rootFlag }.compress.toList.flatMap wordBytes

theorem leaves_ne_nil (bytes : Bytes) : leaves bytes ≠ [] := by
  unfold leaves
  split
  · simp
  · rename_i h
    simpa using h

theorem root_isSome {nodes : List Node} (h : nodes ≠ []) : (root nodes).isSome := by
  fun_induction root nodes with
  | case1 => exact absurd rfl h
  | case2 => rfl
  | case3 a b rest ih => exact ih (by simp [above])

theorem length_hash (bytes : Bytes) : (hash bytes).length = 32 := by
  unfold hash
  obtain ⟨node, h⟩ := Option.isSome_iff_exists.mp (root_isSome (leaves_ne_nil bytes))
  rw [h]
  simp [List.length_flatMap, wordBytes, List.map_const']

end Ifj24.Blake3
