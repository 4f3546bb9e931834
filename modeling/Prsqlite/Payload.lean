import Prsqlite.Cursor

/-!
# Loading a Payload

`BtreePayload` is the payload of a cell as the cursor hands it out: its size, the part of it
stored in the cell (`buf`), and the chain of overflow pages that holds the rest, read
through the pager. `BtreePayload::load(offset, buf)` copies the payload from byte `offset`
on into the destination `buf`: first from the local part, then page by page along the
chain, until the destination is full or the payload ends.

What `load` reads is the logical payload: the local part followed by the chunks of the
overflow chain (`OverflowChain`), which in a well-formed cell add up to `payload_size`
bytes. How many bytes a table-leaf cell keeps locally is `localSize`. On such a payload `load` is a copy of the logical payload: from any offset within
it and into any destination, it fills as much of the destination as the payload has left
and keeps the rest. An offset outside the payload is refused before anything is written.

The destination is the state of the action (`LoadM`), so that, as with `&mut [u8]`, the
bytes copied before an error stay copied. The `while` loop over the chain takes fuel; a
chain of `k` pages needs `k + 1` turns.

## Main results

* `loadOverflow_spec`: the loop over a chain copies the chunks from `offset` on.
* `load_eq_ok`: `load` copies `min |buf| (payload_size - offset)` bytes of the logical
  payload from `offset` on, and keeps the rest of `buf`.
-/

namespace Prsqlite

/-! ### Copies into a buffer -/

/-- `dst[pos..pos + src.len()].copy_from_slice(src)`. -/
def copyAt (dst : List UInt8) (pos : ℕ) (src : List UInt8) : List UInt8 :=
  dst.take pos ++ src ++ dst.drop (pos + src.length)

section CopyAt

variable {dst a b : List UInt8} {pos : ℕ}

/-- A copy that fits keeps the destination's length. -/
theorem length_copyAt (h : pos + a.length ≤ dst.length) :
    (copyAt dst pos a).length = dst.length := by
  simp [copyAt]
  omega

@[simp] theorem copyAt_nil : copyAt dst pos [] = dst := by simp [copyAt]

/-- A copy to the front replaces a prefix. -/
theorem copyAt_zero : copyAt dst 0 a = a ++ dst.drop a.length := by simp [copyAt]

/-- Two copies side by side are one copy of both. -/
theorem copyAt_copyAt {q : ℕ} (h : pos ≤ dst.length) (hq : pos + a.length = q) :
    copyAt (copyAt dst pos a) q b = copyAt dst pos (a ++ b) := by
  subst hq
  have hl : (dst.take pos ++ a).length = pos + a.length := by simp [h]
  simp only [copyAt]
  rw [List.take_left' hl, ← hl, List.drop_append, List.drop_drop, hl]
  simp only [List.length_append, List.append_assoc, Nat.add_assoc]

end CopyAt

/-- Reading `n₁ + n₂` bytes of `X ++ Y` from `d` is reading `n₁` of them in `X` and the rest
in `Y`, when the first read ends `X` or there is no second. -/
theorem drop_take_append {α : Type} (X Y : List α) {d n₁ n₂ : ℕ} (h₁ : n₁ ≤ X.length - d)
    (h : n₁ = X.length - d ∨ n₂ = 0) :
    ((X ++ Y).drop d).take (n₁ + n₂) =
      (X.drop d).take n₁ ++ (Y.drop (d + n₁ - X.length)).take n₂ := by
  rw [List.take_add, List.drop_append_eq_append_drop,
    List.take_append_of_le_length (by simpa using h₁)]
  rcases h with h | rfl
  · rw [List.drop_left' (by simp; omega), show d + n₁ - X.length = d - X.length by omega]
  · simp

/-! ### The payload and its overflow chain -/

/-- A method writing into a destination buffer `&mut [u8]`. -/
abbrev LoadM := EStateM Error (List UInt8)

/-- The overflow chain from `overflow` holds `chunks`: each page of it exists and parses
into the next chunk and the page after it. -/
inductive OverflowChain (pager : Pager) : Option PageId → List (List UInt8) → Prop
  | nil (overflow : Option PageId) : OverflowChain pager overflow []
  | cons {pid : PageId} {chunk : List UInt8} {next : Option PageId} {chunks : List (List UInt8)} :
      pager.Valid pid → pager.overflowPage pid = some (chunk, next) →
      OverflowChain pager next chunks → OverflowChain pager (some pid) (chunk :: chunks)

/-- Modelled from the spec: the largest payload a table-leaf cell keeps whole on its page,
`usable_size - 35`. -/
def maxLocal (usableSize : ℕ) : ℕ := usableSize - 35

/-- Modelled from the spec: the least part of a longer payload that a table-leaf cell keeps
on its page, `(usable_size - 12) * 32 / 255 - 23`. -/
def minLocal (usableSize : ℕ) : ℕ := (usableSize - 12) * 32 / 255 - 23

/-- Modelled from the spec: how many bytes of a payload of `payloadSize` bytes a table-leaf
cell keeps on its page; overflow pages hold `usable_size - 4` bytes of the rest each. -/
def localSize (usableSize payloadSize : ℕ) : ℕ :=
  if payloadSize ≤ maxLocal usableSize then payloadSize
  else
    let surplus := minLocal usableSize + (payloadSize - minLocal usableSize) % (usableSize - 4)
    if surplus ≤ maxLocal usableSize then surplus else minLocal usableSize

namespace BtreePayload

variable (pager : Pager) (payloadInfo : PayloadInfo)

/-- `BtreePayload::size`. -/
def size : ℕ := payloadInfo.payloadSize

/-- `BtreePayload::buf`: the local payload. -/
def buf : List UInt8 := payloadInfo.localPayload

/-- The `while` loop of `load`: `nLoaded` bytes of the destination are filled, the next byte
to read is byte `offset` of the payload, and the chain from `overflow` holds the payload
from byte `cur` on. -/
def loadOverflow : ℕ → ℕ → ℕ → ℕ → Option PageId → LoadM ℕ
  | 0, _, _, _, _ => throw .outOfFuel
  | fuel + 1, nLoaded, offset, cur, overflow => do
    let buf ← get
    if nLoaded < buf.length ∧ cur < payloadInfo.payloadSize then
      let some overflowPage := overflow | throw (.bail "overflow page is not found")
      if ¬ pager.Valid overflowPage then throw (.pager overflowPage)
      let some (payload, nextOverflow) := pager.overflowPage overflowPage
        | throw (.bail "parse overflow")
      if offset < cur + payload.length then
        let n := min (payload.length - (offset - cur)) (buf.length - nLoaded)
        set (copyAt buf nLoaded ((payload.drop (offset - cur)).take n))
        loadOverflow fuel (nLoaded + n) (offset + n) (cur + payload.length) nextOverflow
      else loadOverflow fuel nLoaded offset (cur + payload.length) nextOverflow
    else return nLoaded

/-- `BtreePayload::load`: copy the payload from `offset` on into the destination, and
return the number of bytes copied. -/
def load (offset : ℤ) (fuel : ℕ) : LoadM ℕ := do
  if offset < 0 then throw (.bail "offset must be non-negative")
  if (payloadInfo.payloadSize : ℤ) ≤ offset then throw (.bail "offset exceeds payload size")
  let payload := payloadInfo.localPayload
  let offset := offset.toNat
  let nLoaded ← if offset < payload.length then do
      let n := min (payload.length - offset) (← get).length
      modify (copyAt · 0 ((payload.drop offset).take n))
      pure n
    else pure 0
  loadOverflow pager payloadInfo fuel nLoaded (offset + nLoaded) payload.length payloadInfo.overflow

variable {pager payloadInfo} {fuel nLoaded offset cur : ℕ} {overflow : Option PageId}
  {buf : List UInt8}

/-- The loop stops when the destination is full or the payload read. -/
theorem loadOverflow_succ_done (h : ¬ (nLoaded < buf.length ∧ cur < payloadInfo.payloadSize)) :
    loadOverflow pager payloadInfo (fuel + 1) nLoaded offset cur overflow buf =
      .ok nLoaded buf := by
  simp only [loadOverflow, EStateM.bind_apply, EStateM.get_apply, if_neg h, EStateM.pure_apply]

section Step

variable {pid : PageId} {chunk : List UInt8} {next : Option PageId}
  (h : nLoaded < buf.length ∧ cur < payloadInfo.payloadSize) (hv : pager.Valid pid)
  (hp : pager.overflowPage pid = some (chunk, next))
include h hv hp

/-- A page of the chain that holds byte `offset` is copied from there. -/
theorem loadOverflow_succ_copy (ho : offset < cur + chunk.length) :
    loadOverflow pager payloadInfo (fuel + 1) nLoaded offset cur (some pid) buf =
      loadOverflow pager payloadInfo fuel
        (nLoaded + min (chunk.length - (offset - cur)) (buf.length - nLoaded))
        (offset + min (chunk.length - (offset - cur)) (buf.length - nLoaded))
        (cur + chunk.length) next
        (copyAt buf nLoaded ((chunk.drop (offset - cur)).take
          (min (chunk.length - (offset - cur)) (buf.length - nLoaded)))) := by
  simp [loadOverflow, h, hv, hp, ho]

/-- A page of the chain that ends before byte `offset` is skipped. -/
theorem loadOverflow_succ_skip (ho : ¬ offset < cur + chunk.length) :
    loadOverflow pager payloadInfo (fuel + 1) nLoaded offset cur (some pid) buf =
      loadOverflow pager payloadInfo fuel nLoaded offset (cur + chunk.length) next buf := by
  simp [loadOverflow, h, hv, hp, ho]

end Step

/-- Once the destination is full or the payload read, nothing is left to copy. -/
theorem min_left_eq_zero (h : ¬ (nLoaded < buf.length ∧ cur < payloadInfo.payloadSize))
    (hcur : nLoaded < buf.length → cur ≤ offset) :
    min (buf.length - nLoaded) (payloadInfo.payloadSize - offset) = 0 := by
  by_cases hlt : nLoaded < buf.length
  · have := hcur hlt; omega
  · omega

/-- The counts of a turn that copies `n` bytes of a chunk of `c` bytes, from its byte
`offset - cur` on, into a destination of `B` bytes filled up to `nLoaded`, of a payload of
`P` bytes. -/
theorem copy_counts {B P c n : ℕ} (hP : cur + c ≤ P) (hgo : nLoaded < B) (hle : cur ≤ offset)
    (ho : offset < cur + c) (hn : min (c - (offset - cur)) (B - nLoaded) = n) :
    nLoaded + n ≤ B ∧ (nLoaded + n < B → cur + c ≤ offset + n) ∧
      min (B - nLoaded) (P - offset) = n + min (B - (nLoaded + n)) (P - (offset + n)) ∧
      n ≤ c - (offset - cur) ∧
      (n = c - (offset - cur) ∨ min (B - (nLoaded + n)) (P - (offset + n)) = 0) ∧
      offset - cur + n - c = offset + n - (cur + c) := by
  have h₁ : n ≤ B - nLoaded := hn ▸ min_le_right _ _
  have h₂ : n ≤ c - (offset - cur) := hn ▸ min_le_left _ _
  have hor : n = c - (offset - cur) ∨ n = B - nLoaded :=
    hn ▸ (Nat.le_total _ _).imp Nat.min_eq_left Nat.min_eq_right
  clear hn
  refine ⟨by omega, fun _ => by omega, ?_, h₂, hor.imp_right fun h => ?_, by omega⟩
  · rw [← Nat.sub_sub, ← Nat.sub_sub, Nat.sub_min_sub_right,
      Nat.add_sub_cancel' (le_min h₁ (by omega))]
  · rw [show B - (nLoaded + n) = 0 by omega, Nat.zero_min]

/-- **The loop over the chain.** If the chain from `overflow` holds the payload from byte
`cur` to its end, and the destination is filled up to `nLoaded` and then waits for byte
`offset ≥ cur`, the loop copies the chunks from `offset` on into the destination from
`nLoaded` on, as many bytes as both have left. -/
theorem loadOverflow_spec : ∀ {overflow : Option PageId} {chunks : List (List UInt8)},
    OverflowChain pager overflow chunks →
    ∀ {fuel nLoaded offset cur : ℕ} {buf : List UInt8}, chunks.length < fuel →
      payloadInfo.payloadSize = cur + chunks.flatten.length → nLoaded ≤ buf.length →
      (nLoaded < buf.length → cur ≤ offset) →
      loadOverflow pager payloadInfo fuel nLoaded offset cur overflow buf =
        .ok (nLoaded + min (buf.length - nLoaded) (payloadInfo.payloadSize - offset))
          (copyAt buf nLoaded ((chunks.flatten.drop (offset - cur)).take
            (min (buf.length - nLoaded) (payloadInfo.payloadSize - offset))))
  | _, _, .nil _, fuel + 1, nLoaded, offset, cur, buf, _, hsize, _, hcur => by
    have hdone : ¬ (nLoaded < buf.length ∧ cur < payloadInfo.payloadSize) := by
      simp only [hsize, List.flatten_nil, List.length_nil, Nat.add_zero, Nat.lt_irrefl, and_false,
        not_false_eq_true]
    rw [loadOverflow_succ_done hdone, min_left_eq_zero hdone hcur]
    simp
  | _, _, @OverflowChain.cons _ _ chunk _ chunks hv hp hc, fuel + 1, nLoaded, offset, cur, buf,
      hfuel, hsize, hn, hcur => by
    simp only [List.length_cons, Nat.add_lt_add_iff_right, List.flatten_cons,
      List.length_append] at hfuel hsize
    have hsize' := hsize.trans (Nat.add_assoc _ _ _).symm
    by_cases hgo : nLoaded < buf.length ∧ cur < payloadInfo.payloadSize
    · by_cases ho : offset < cur + chunk.length
      · -- the page holds byte `offset`: copy from it, then go on from its end
        rw [loadOverflow_succ_copy hgo hv hp ho]
        generalize hn₁ : min (chunk.length - (offset - cur)) (buf.length - nLoaded) = n₁
        obtain ⟨hfit, hnext, hmin, hle₁, hend, hoff⟩ :=
          copy_counts (hsize' ▸ Nat.le_add_right _ _) hgo.1 (hcur hgo.1) ho hn₁
        have hlen₁ : ((chunk.drop (offset - cur)).take n₁).length = n₁ := by
          rw [List.length_take, List.length_drop, min_eq_left hle₁]
        have hlen : (copyAt buf nLoaded ((chunk.drop (offset - cur)).take n₁)).length =
            buf.length := length_copyAt (by rw [hlen₁]; exact hfit)
        rw [loadOverflow_spec hc hfuel hsize' (hlen ▸ hfit) (fun h => hnext (hlen ▸ h)), hlen,
          copyAt_copyAt hn (congrArg (nLoaded + ·) hlen₁), hmin, List.flatten_cons,
          drop_take_append chunk chunks.flatten hle₁ hend, hoff, Nat.add_assoc]
      · -- the page ends before byte `offset`: skip it
        rw [loadOverflow_succ_skip hgo hv hp ho,
          loadOverflow_spec hc hfuel hsize' hn (fun _ => Nat.not_lt.1 ho), List.flatten_cons,
          List.drop_append_eq_append_drop,
          List.drop_eq_nil_of_le (show chunk.length ≤ offset - cur by omega), List.nil_append,
          Nat.sub_sub]
    · rw [loadOverflow_succ_done hgo, min_left_eq_zero hgo hcur]
      simp

/-- `load` from an offset within the payload: the local part is copied if the offset is in
it, and the loop goes on from its end. -/
theorem load_of_lt {offset : ℕ} (ho : offset < payloadInfo.payloadSize) :
    load pager payloadInfo offset fuel buf =
      if offset < payloadInfo.localPayload.length then
        let n := min (payloadInfo.localPayload.length - offset) buf.length
        loadOverflow pager payloadInfo fuel n (offset + n) payloadInfo.localPayload.length
          payloadInfo.overflow (copyAt buf 0 ((payloadInfo.localPayload.drop offset).take n))
      else loadOverflow pager payloadInfo fuel 0 offset payloadInfo.localPayload.length
          payloadInfo.overflow buf := by
  have h0 : ¬ ((offset : ℤ) < 0) := by omega
  have ho' : ¬ ((payloadInfo.payloadSize : ℤ) ≤ offset) := by omega
  split_ifs with hl <;> simp [load, h0, ho', hl]

/-- `load` refuses an offset at or past the end of the payload, before it copies anything. -/
theorem load_of_le {offset : ℕ} (ho : payloadInfo.payloadSize ≤ offset) :
    load pager payloadInfo offset fuel buf = .error (.bail "offset exceeds payload size") buf := by
  have h0 : ¬ ((offset : ℤ) < 0) := by omega
  have ho' : (payloadInfo.payloadSize : ℤ) ≤ offset := by omega
  simp [load, h0, ho']

/-- **`load`.** On a payload whose local part and overflow chain hold its `payload_size`
bytes, `load` from an offset within the payload copies `min |buf| (payload_size - offset)`
bytes of the logical payload, from `offset` on, to the front of `buf`, and keeps the rest of
`buf`. -/
theorem load_eq_ok {chunks : List (List UInt8)}
    (hc : OverflowChain pager payloadInfo.overflow chunks)
    (hsize : payloadInfo.payloadSize = payloadInfo.localPayload.length + chunks.flatten.length)
    (hfuel : chunks.length < fuel) {offset : ℕ} (ho : offset < payloadInfo.payloadSize)
    (buf : List UInt8) :
    load pager payloadInfo offset fuel buf =
      .ok (min buf.length (payloadInfo.payloadSize - offset))
        (((payloadInfo.localPayload ++ chunks.flatten).drop offset).take
            (min buf.length (payloadInfo.payloadSize - offset)) ++
          buf.drop (min buf.length (payloadInfo.payloadSize - offset))) := by
  have hlen : ((payloadInfo.localPayload ++ chunks.flatten).drop offset).length =
      payloadInfo.payloadSize - offset := by rw [List.length_drop, List.length_append, hsize]
  rw [load_of_lt ho]
  split_ifs with hl
  · -- from the local part, then on along the chain
    generalize hn₀ : min (payloadInfo.localPayload.length - offset) buf.length = n₀
    have h₁ : n₀ ≤ buf.length := hn₀ ▸ Nat.min_le_right _ _
    have h₂ : n₀ ≤ payloadInfo.localPayload.length - offset := hn₀ ▸ Nat.min_le_left _ _
    have hor : n₀ = payloadInfo.localPayload.length - offset ∨ n₀ = buf.length :=
      hn₀ ▸ (Nat.le_total _ _).imp Nat.min_eq_left Nat.min_eq_right
    clear hn₀
    have hlen₀ : ((payloadInfo.localPayload.drop offset).take n₀).length = n₀ := by
      rw [List.length_take, List.length_drop, Nat.min_eq_left h₂]
    have hbuf : (copyAt buf 0 ((payloadInfo.localPayload.drop offset).take n₀)).length =
        buf.length := length_copyAt (by rw [hlen₀, Nat.zero_add]; exact h₁)
    rw [loadOverflow_spec hc hfuel hsize (hbuf ▸ h₁) (fun _ => by omega), hbuf,
      copyAt_copyAt (Nat.zero_le _) (by rw [hlen₀, Nat.zero_add]),
      ← drop_take_append _ _ h₂ (hor.imp_right fun h => by rw [h, Nat.sub_self, Nat.zero_min]),
      ← Nat.sub_sub, Nat.sub_min_sub_right, Nat.add_sub_cancel' (le_min h₁ (by omega)),
      copyAt_zero, List.length_take, hlen, Nat.min_eq_left (Nat.min_le_right _ _)]
  · -- past the local part: along the chain only
    rw [loadOverflow_spec hc hfuel hsize (Nat.zero_le _) (fun _ => Nat.not_lt.1 hl), Nat.zero_add,
      Nat.sub_zero, copyAt_zero, List.drop_append_eq_append_drop,
      List.drop_eq_nil_of_le (Nat.not_lt.1 hl), List.nil_append, List.length_take, ← hlen,
      List.drop_append_eq_append_drop, List.drop_eq_nil_of_le (Nat.not_lt.1 hl), List.nil_append,
      Nat.min_eq_left (Nat.min_le_right _ _)]

end BtreePayload

/-- **`BtreePayload::load` reads the logical payload.** Let the local part of a payload and
the chunks of its overflow chain add up to its `payload_size` bytes. From an offset within
the payload, and with fuel for the chain, `load` returns `Ok(n)` with
`n = min |buf| (payload_size - offset)`, after copying the `n` bytes of the logical payload
from `offset` on to the front of `buf` and keeping the rest of `buf`. An offset outside the
payload is an error, and `buf` is left as it was. -/
theorem load_reads_logical_payload (pager : Pager) (payloadInfo : PayloadInfo)
    {chunks : List (List UInt8)} (hc : OverflowChain pager payloadInfo.overflow chunks)
    (hsize : payloadInfo.localPayload.length + chunks.flatten.length = payloadInfo.payloadSize)
    {fuel : ℕ} (hfuel : chunks.length < fuel) (offset : ℤ) (buf : List UInt8) :
    (0 ≤ offset → offset < payloadInfo.payloadSize →
      BtreePayload.load pager payloadInfo offset fuel buf =
        .ok (min buf.length (payloadInfo.payloadSize - offset.toNat))
          (((payloadInfo.localPayload ++ chunks.flatten).drop offset.toNat).take
              (min buf.length (payloadInfo.payloadSize - offset.toNat)) ++
            buf.drop (min buf.length (payloadInfo.payloadSize - offset.toNat)))) ∧
    (offset < 0 → BtreePayload.load pager payloadInfo offset fuel buf =
      .error (.bail "offset must be non-negative") buf) ∧
    (0 ≤ offset → payloadInfo.payloadSize ≤ offset →
      BtreePayload.load pager payloadInfo offset fuel buf =
        .error (.bail "offset exceeds payload size") buf) := by
  refine ⟨fun h0 hlt => ?_, fun h => by simp [BtreePayload.load, h], fun h0 hle => ?_⟩
  · obtain ⟨o, rfl⟩ := Int.eq_ofNat_of_zero_le h0
    exact BtreePayload.load_eq_ok hc hsize.symm hfuel (by omega) buf
  · have h0' : ¬ offset < 0 := by omega
    simp [BtreePayload.load, h0', hle]

/-- Pages 1 and 2 of this pager are an overflow chain that holds `[3, 4]` and then `[5]`. -/
def twoPageChain : Pager where
  numPages := 2
  page _ := ⟨.tableLeaf, 0, 512, 0, 0, []⟩
  overflowPage
    | 1 => some ([3, 4], some 2)
    | 2 => some ([5], none)
    | _ => none
  usableSize := 512

/-- The payload `[1, 2, 3, 4, 5]`, two bytes of it local: `load(1, buf)` into three bytes
reads `[2, 3, 4]`, across the local part and the first overflow page. -/
theorem twoPageChain_load :
    OverflowChain twoPageChain (some 1) [[3, 4], [5]] ∧
    BtreePayload.load twoPageChain ⟨5, [1, 2], some 1⟩ 1 3 [0, 0, 0] = .ok 3 [2, 3, 4] :=
  have hc : OverflowChain twoPageChain (some 1) [[3, 4], [5]] :=
    .cons (by decide) rfl (.cons (by decide) rfl (.nil none))
  ⟨hc, (load_reads_logical_payload twoPageChain ⟨5, [1, 2], some 1⟩ hc rfl (by decide) 1
    [0, 0, 0]).1 (by decide) (by decide)⟩

end Prsqlite
