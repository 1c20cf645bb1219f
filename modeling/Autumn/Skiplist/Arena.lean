import Autumn.Skiplist
import Autumn.Y.Encoding

/-!
# The arena of a skiplist

The arena hands out consecutive parts of one buffer, for nodes, keys and encoded values; nothing is
ever freed.  Positions are 32-bit numbers, so sums are taken modulo `2 ^ 32`.

The bytes of keys and values are kept in `buf`.  A node is addressed by its position but kept as a
record (`nodes`) with its tower beside it (`tower`): its words lie in the part it was given
(`Arena.node_fits`), and the parts do not overlap (`putNode_eq`, `putKey_eq`, `putVal_eq`).
-/

namespace Autumn

open Lib Y Function List

namespace Skl

/-! ## The buffer -/

/-- Write bytes at a position. -/
def copyTo (buf : ℕ → UInt8) (m : ℕ) (b : Bytes) : ℕ → UInt8 :=
  fun i => if m ≤ i ∧ i < m + b.length then b.getD (i - m) 0 else buf i

/-- The bytes at a position. -/
def bytesAt (buf : ℕ → UInt8) (offset size : ℕ) : Bytes :=
  (List.range size).map fun i => buf (offset + i)

theorem bytesAt_copyTo (buf : ℕ → UInt8) (m : ℕ) (b : Bytes) : bytesAt
    (copyTo buf m b) m b.length = b := by
  apply ext_getElem
  · rw [bytesAt, length_map, length_range]
  · intro i h1 h2
    simp only [bytesAt, getElem_map, getElem_range]
    rw [copyTo, if_pos ⟨by omega, by omega⟩, Nat.add_sub_cancel_left, getD_eq_getElem?_getD,
      getElem?_eq_getElem h2, Option.getD_some]

theorem bytesAt_congr {buf buf' : ℕ → UInt8} {offset size n : ℕ} (hn : offset + size ≤ n)
    (h : ∀ i < n, buf' i = buf i) : bytesAt buf' offset size = bytesAt buf offset size := by
  apply map_congr_left
  intro i hi
  rw [mem_range] at hi
  exact h _ (by omega)

theorem copyTo_of_lt {buf : ℕ → UInt8} {m i : ℕ} (b : Bytes) (h : i < m) :
    copyTo buf m b i = buf i :=
  if_neg (by omega)

/-! ## The arena -/

/-- `node`, without its tower. -/
structure Node where
  /-- Size and offset of the value in one word. -/
  value : ℕ := 0
  keyOffset : ℕ := 0
  keySize : ℕ := 0
  height : ℕ := 0
  deriving DecidableEq, Repr, Inhabited

/-- `Arena`. -/
structure Arena where
  n : ℕ
  len : ℕ
  buf : ℕ → UInt8
  nodes : ℕ → Node
  /-- The tower of the node at a position: the position of the next node on each level. -/
  tower : ℕ → ℕ → ℕ

/-- `newArena`: position zero is not used, it stands for `nil`. -/
def newArena (len : ℕ) : Arena where
  n := 1
  len := len
  buf := fun _ => 0
  nodes := fun _ => {}
  tower := fun _ _ => 0

namespace Arena

/-- `AddUint32` on `n`, and the assertion that the buffer is long enough. -/
def reserve (s : Arena) (l : ℕ) : Option Arena :=
  let n := (s.n + l) % 2 ^ 32
  if n ≤ s.len then some { s with n := n } else none

/-- `putNode`: the position is rounded up to a multiple of eight. -/
def putNode (s : Arena) (height : ℕ) : Option (ℕ × Arena) := do
  let l := nodeSize height
  let s ← s.reserve l
  some ((sub32 s.n l + 7) % 2 ^ 32 / 8 * 8, s)

/-- `putVal`: the value is encoded into the buffer from `m` on. -/
def putVal (s : Arena) (v : ValueStruct) : Option (ℕ × Arena) := do
  let l := v.encodedSize % 2 ^ 32
  let s ← s.reserve l
  let m := sub32 s.n l
  some (m, { s with buf := copyTo s.buf m (v.encode.take (s.len - m)) })

/-- `putKey`; the second assertion is about the number of bytes copied to `buf[m:n]`. -/
def putKey (s : Arena) (key : Bytes) : Option (ℕ × Arena) := do
  let l := key.length % 2 ^ 32
  let s ← s.reserve l
  let m := sub32 s.n l
  let copied := min (s.n - m) key.length
  if key.length = copied then some (m, { s with buf := copyTo s.buf m (key.take copied) }) else none

/-- `getKey`. -/
def getKey (s : Arena) (offset size : ℕ) : Bytes := bytesAt s.buf offset size

/-- `getVal`. -/
def getVal (s : Arena) (offset size : ℕ) : Option ValueStruct :=
  ValueStruct.decode (bytesAt s.buf offset size)

end Arena

/-- `encodeValue`: the size in the upper half of the word. -/
def encodeValue (valOffset valSize : ℕ) : ℕ := valSize * 2 ^ 32 + valOffset

/-- `decodeValue`. -/
def decodeValue (value : ℕ) : ℕ × ℕ := (value % 2 ^ 32, value / 2 ^ 32 % 2 ^ 32)

/-- `newNode`. -/
def newNode (arena : Arena) (key : Bytes) (v : ValueStruct) (height : ℕ) : Option (ℕ × Arena) := do
  let (offset, arena) ← arena.putNode height
  let (keyOffset, arena) ← arena.putKey key
  let (valOffset, arena) ← arena.putVal v
  let node : Node :=
    { value := encodeValue valOffset (v.encodedSize % 2 ^ 32)
      keyOffset := keyOffset
      keySize := key.length % 2 ^ 16
      height := height % 2 ^ 16 }
  some (offset, { arena with nodes := Function.update arena.nodes offset node })

/-! ## What fits -/

theorem decodeValue_encodeValue {offset size : ℕ} (ho : offset < 2 ^ 32) (hs : size < 2 ^ 32) :
    decodeValue (encodeValue offset size) = (offset, size) := by
  rw [decodeValue, encodeValue, Prod.mk.injEq]
  omega

variable {height : ℕ}

namespace Arena

variable {s : Arena}

theorem reserve_eq {l : ℕ} (hlen : s.len < 2 ^ 32) (h : s.n + l ≤ s.len) :
    s.reserve l = some { s with n := s.n + l } := by
  rw [reserve, Nat.mod_eq_of_lt (by omega)]
  exact if_pos h

/-- The position of a node in the part that was reserved for it. -/
def align (n : ℕ) : ℕ := (n + 7) / 8 * 8

/-- The fields of a node of the given height and the used words of its tower, sixteen and
`4 * height` bytes, lie between the positions before and after the reservation. -/
theorem node_fits (n : ℕ) (h : height ≤ maxHeight) :
    n ≤ align n ∧ align n + (16 + 4 * height) ≤ n + nodeSize height := by
  rw [align, nodeSize, maxNodeSize]
  rw [maxHeight] at h ⊢
  omega

theorem putNode_eq (hlen : s.len < 2 ^ 32) (h : s.n + nodeSize height ≤ s.len) :
    s.putNode height = some (align s.n, { s with n := s.n + nodeSize height }) := by
  have h7 : 7 ≤ nodeSize height := Nat.le_add_left ..
  have halign : (s.n + 7) % 2 ^ 32 / 8 * 8 = align s.n := by
    rw [align]
    omega
  rw [putNode, reserve_eq hlen h]
  show some ((sub32 (s.n + nodeSize height) (nodeSize height) + 7) % 2 ^ 32 / 8 * 8, _) = _
  rw [sub32_add (by omega), halign]

theorem putKey_eq {key : Bytes} (hlen : s.len < 2 ^ 32) (h : s.n + key.length ≤ s.len) :
    s.putKey key =
      some (s.n, { s with n := s.n + key.length, buf := copyTo s.buf s.n key }) := by
  have hmod : key.length % 2 ^ 32 = key.length := Nat.mod_eq_of_lt (by omega)
  have hcopied : min (s.n + key.length - s.n) key.length = key.length := by omega
  rw [putKey, hmod, reserve_eq hlen h]
  show (if key.length = min (s.n + key.length - sub32 (s.n + key.length) key.length) key.length
    then some (sub32 (s.n + key.length) key.length, _) else none) = _
  rw [sub32_add (by omega), hcopied, if_pos rfl, take_length]

theorem putVal_eq {v : ValueStruct} (hv : v.expiresAt < 2 ^ 64) (hlen : s.len < 2 ^ 32)
    (h : s.n + v.encodedSize ≤ s.len) :
    s.putVal v =
      some (s.n, { s with n := s.n + v.encodedSize, buf := copyTo s.buf s.n v.encode }) := by
  have hmod : v.encodedSize % 2 ^ 32 = v.encodedSize := Nat.mod_eq_of_lt (by omega)
  have htake : v.encode.take (s.len - s.n) = v.encode := by
    rw [take_of_length_le]
    rw [ValueStruct.length_encode hv]
    omega
  rw [putVal, hmod, reserve_eq hlen h]
  show some (sub32 (s.n + v.encodedSize) v.encodedSize, _) = _
  rw [sub32_add (by omega)]
  show some (s.n, { s with n := _, buf := copyTo s.buf s.n (v.encode.take (s.len - s.n)) }) = _
  rw [htake]

end Arena

/-! ## Nodes with their keys and values -/

/-- The key of the node at `y`. -/
def Arena.keyOf (s : Arena) (y : ℕ) : Bytes := s.getKey (s.nodes y).keyOffset (s.nodes y).keySize

/-- The value of the node at `y`. -/
def Arena.valueOf (s : Arena) (y : ℕ) : Option ValueStruct :=
  s.getVal (decodeValue (s.nodes y).value).1 (decodeValue (s.nodes y).value).2

/-- The node at `y` and the bytes of its key and its value lie in the used part. -/
structure Holds (s : Arena) (y : ℕ) : Prop where
  lt : y < s.n
  key_le : (s.nodes y).keyOffset + (s.nodes y).keySize ≤ s.n
  value_le : (decodeValue (s.nodes y).value).1 + (decodeValue (s.nodes y).value).2 ≤ s.n

/-- The arena `s'` is `s` with more bytes behind the used part. -/
structure Grows (s s' : Arena) : Prop where
  le : s.n ≤ s'.n
  len_eq : s'.len = s.len
  buf_eq : ∀ i < s.n, s'.buf i = s.buf i

variable {s s' : Arena} {y : ℕ}

theorem Holds.grow (h : Holds s y) (hg : Grows s s') (hy : s'.nodes y = s.nodes y) :
    Holds s' y where
  lt := h.lt.trans_le hg.le
  key_le := by rw [hy]; exact h.key_le.trans hg.le
  value_le := by rw [hy]; exact h.value_le.trans hg.le

theorem Holds.keyOf_eq (h : Holds s y) (hg : Grows s s')
    (hoff : (s'.nodes y).keyOffset = (s.nodes y).keyOffset)
    (hsize : (s'.nodes y).keySize = (s.nodes y).keySize) : s'.keyOf y = s.keyOf y := by
  rw [Arena.keyOf, Arena.keyOf, hoff, hsize]
  exact bytesAt_congr h.key_le hg.buf_eq

theorem Holds.valueOf_eq (h : Holds s y) (hg : Grows s s') (hy : s'.nodes y = s.nodes y) :
    s'.valueOf y = s.valueOf y := by
  rw [Arena.valueOf, Arena.valueOf, hy, Arena.getVal,
    Arena.getVal, bytesAt_congr h.value_le hg.buf_eq]

/-- The value of a node is replaced: the new one is written behind the used part. -/
def Arena.withValue (s : Arena) (y : ℕ) (v : ValueStruct) : Arena :=
  { s with
    n := s.n + v.encodedSize
    buf := copyTo s.buf s.n v.encode
    nodes := Function.update s.nodes y
      { s.nodes y with value := encodeValue s.n (v.encodedSize % 2 ^ 32) } }

/-- A new node, its key and its value behind the used part. -/
def Arena.withNode (s : Arena) (key : Bytes) (v : ValueStruct) (height : ℕ) : Arena :=
  let k := s.n + nodeSize height
  { s with
    n := k + key.length + v.encodedSize
    buf := copyTo (copyTo s.buf k key) (k + key.length) v.encode
    nodes := Function.update s.nodes (Arena.align s.n)
      { value := encodeValue (k + key.length) (v.encodedSize % 2 ^ 32)
        keyOffset := k
        keySize := key.length % 2 ^ 16
        height := height % 2 ^ 16 } }

theorem newNode_eq {key : Bytes} {v : ValueStruct} (hv : v.expiresAt < 2 ^ 64)
    (hlen : s.len < 2 ^ 32) (h : s.n + nodeSize height + key.length + v.encodedSize ≤ s.len) :
    newNode s key v height = some (Arena.align s.n, s.withNode key v height) := by
  let s₁ : Arena := { s with n := s.n + nodeSize height }
  let s₂ : Arena := { s₁ with n := s₁.n + key.length, buf := copyTo s₁.buf s₁.n key }
  have hkey : s₁.putKey key = some (s₁.n, s₂) :=
    Arena.putKey_eq hlen (by show s.n + nodeSize height + key.length ≤ s.len; omega)
  have hval : s₂.putVal v = some (s₂.n, { s₂ with
      n := s₂.n + v.encodedSize, buf := copyTo s₂.buf s₂.n v.encode }) := Arena.putVal_eq hv hlen h
  rw [newNode, Arena.putNode_eq hlen (by omega)]
  show (s₁.putKey key).bind _ = _
  rw [hkey]
  show (s₂.putVal v).bind _ = _
  rw [hval]
  rfl

theorem grows_withNode (s : Arena) (key : Bytes) (v : ValueStruct) (height : ℕ) :
    Grows s (s.withNode key v height) where
  le := by
    show s.n ≤ s.n + nodeSize height + key.length + v.encodedSize
    omega
  len_eq := rfl
  buf_eq := fun i hi => by
    show copyTo (copyTo s.buf _ key) _ v.encode i = s.buf i
    rw [copyTo_of_lt _ (by omega), copyTo_of_lt _ (by omega)]

theorem grows_withValue (s : Arena) (y : ℕ) (v : ValueStruct) : Grows s (s.withValue y v) where
  le := Nat.le_add_right ..
  len_eq := rfl
  buf_eq := fun _ hi => copyTo_of_lt _ hi

/-! ### The new node and the new value -/

section New

variable {key : Bytes} {v : ValueStruct}

theorem nodes_withNode_self : (s.withNode key v height).nodes (Arena.align s.n) =
    { value := encodeValue (s.n + nodeSize height + key.length) (v.encodedSize % 2 ^ 32)
      keyOffset := s.n + nodeSize height
      keySize := key.length % 2 ^ 16
      height := height % 2 ^ 16 } :=
  update_self ..

theorem nodes_withNode_of_ne (hy : y ≠ Arena.align s.n) :
    (s.withNode key v height).nodes y = s.nodes y :=
  update_of_ne hy ..

theorem keyOf_withNode (hkey : key.length < 2 ^ 16) :
    (s.withNode key v height).keyOf (Arena.align s.n) = key := by
  rw [Arena.keyOf, nodes_withNode_self]
  show bytesAt (copyTo (copyTo s.buf (s.n + nodeSize height) key)
    (s.n + nodeSize height + key.length)
    v.encode) (s.n + nodeSize height) (key.length % 2 ^ 16) = key
  rw [Nat.mod_eq_of_lt hkey, bytesAt_congr le_rfl fun i hi => copyTo_of_lt _ hi, bytesAt_copyTo]

theorem decodeValue_withNode (h : s.n + nodeSize height + key.length + v.encodedSize < 2 ^ 32) :
    decodeValue ((s.withNode key v height).nodes (Arena.align s.n)).value =
      (s.n + nodeSize height + key.length, v.encodedSize) := by
  rw [nodes_withNode_self]
  show decodeValue (encodeValue _ (v.encodedSize % 2 ^ 32)) = _
  rw [Nat.mod_eq_of_lt (by omega), decodeValue_encodeValue (by omega) (by omega)]

theorem valueOf_withNode (hv : v.expiresAt < 2 ^ 64)
    (h : s.n + nodeSize height + key.length + v.encodedSize < 2 ^ 32) :
    (s.withNode key v height).valueOf (Arena.align s.n) = some v.decoded := by
  rw [Arena.valueOf, decodeValue_withNode h, Arena.getVal, ← ValueStruct.length_encode hv]
  show ValueStruct.decode (bytesAt (copyTo _ _ v.encode) _ _) = _
  rw [bytesAt_copyTo, ValueStruct.decode_encode hv]

theorem holds_withNode (hheight : height ≤ maxHeight)
    (h : s.n + nodeSize height + key.length + v.encodedSize < 2 ^ 32) :
    Holds (s.withNode key v height) (Arena.align s.n) where
  lt := by
    have := Arena.node_fits s.n hheight
    show Arena.align s.n < s.n + nodeSize height + key.length + v.encodedSize
    omega
  key_le := by
    have := Nat.mod_le key.length (2 ^ 16)
    rw [nodes_withNode_self]
    show s.n + nodeSize height + key.length % 2 ^ 16 ≤
      s.n + nodeSize height + key.length + v.encodedSize
    omega
  value_le := by
    rw [decodeValue_withNode h]
    rfl

theorem nodes_withValue_self : (s.withValue y v).nodes y =
    { s.nodes y with value := encodeValue s.n (v.encodedSize % 2 ^ 32) } :=
  update_self ..

theorem nodes_withValue_of_ne {z : ℕ} (hz : z ≠ y) : (s.withValue y v).nodes z = s.nodes z :=
  update_of_ne hz ..

theorem decodeValue_withValue (h : s.n + v.encodedSize < 2 ^ 32) :
    decodeValue ((s.withValue y v).nodes y).value = (s.n, v.encodedSize) := by
  rw [nodes_withValue_self]
  show decodeValue (encodeValue _ (v.encodedSize % 2 ^ 32)) = _
  rw [Nat.mod_eq_of_lt (by omega), decodeValue_encodeValue (by omega) (by omega)]

theorem valueOf_withValue (hv : v.expiresAt < 2 ^ 64) (h : s.n + v.encodedSize < 2 ^ 32) :
    (s.withValue y v).valueOf y = some v.decoded := by
  rw [Arena.valueOf, decodeValue_withValue h, Arena.getVal, ← ValueStruct.length_encode hv]
  show ValueStruct.decode (bytesAt (copyTo _ _ v.encode) _ _) = _
  rw [bytesAt_copyTo, ValueStruct.decode_encode hv]

theorem keySize_withValue (z : ℕ) :
    ((s.withValue y v).nodes z).keyOffset = (s.nodes z).keyOffset ∧
      ((s.withValue y v).nodes z).keySize = (s.nodes z).keySize ∧
      ((s.withValue y v).nodes z).height = (s.nodes z).height := by
  by_cases hz : z = y
  · rw [hz, nodes_withValue_self]
    exact ⟨rfl, rfl, rfl⟩
  · rw [nodes_withValue_of_ne hz]
    exact ⟨rfl, rfl, rfl⟩

theorem Holds.withValue (hy : Holds s y) (h : s.n + v.encodedSize < 2 ^ 32) :
    Holds (s.withValue y v) y where
  lt := hy.lt.trans_le (Nat.le_add_right ..)
  key_le := by
    rw [nodes_withValue_self]
    exact hy.key_le.trans (Nat.le_add_right ..)
  value_le := by
    rw [decodeValue_withValue h]
    rfl

end New

end Skl
end Autumn
