import ShellChain.Lib.ByteCodec
import Mathlib.Data.List.TakeWhile

/-!
# RLP encoding

The recursive length prefix encoding of byte strings, unsigned integers and lists. A list is given by the encodings of its
items. An encoded string or list is read off the front of a string of bytes in one way only, when its payload is shorter
than `2 ^ 64` bytes.
-/

namespace Rlp

open ByteCodec List

/-- The big-endian bytes of a number of width `w` without the leading zeros. -/
def trimmed (w n : Nat) : List UInt8 :=
  (beBytes w n).dropWhile (· == 0)

/-- The header of a payload: one byte up to 55 bytes, the length of the length and the length above. -/
def header (list : Bool) (payloadLength : Nat) : List UInt8 :=
  if payloadLength < 56 then
    [UInt8.ofNat ((if list then 0xc0 else 0x80) + payloadLength)]
  else
    let length := trimmed 8 payloadLength
    UInt8.ofNat ((if list then 0xf7 else 0xb7) + length.length) :: length

/-- A byte string. A single byte below `0x80` is its own encoding. -/
def string : List UInt8 → List UInt8
  | [b] => if b < 0x80 then [b] else header false 1 ++ [b]
  | bs => header false bs.length ++ bs

/-- An unsigned integer of width `w`: the string of its bytes without the leading zeros. -/
def uint (w n : Nat) : List UInt8 :=
  string (trimmed w n)

/-- A list of encoded items. -/
def list (items : List (List UInt8)) : List UInt8 :=
  header true items.flatten.length ++ items.flatten

/-! ## Reading an encoding back -/

/-- The bytes of a number are zeros and its trimmed bytes. -/
theorem beBytes_eq_append (w n : Nat) : beBytes w n = replicate (w - (trimmed w n).length) 0 ++ trimmed w n := by
  have hsplit : (beBytes w n).takeWhile (· == 0) ++ trimmed w n = beBytes w n := takeWhile_append_dropWhile
  have hlen : ((beBytes w n).takeWhile (· == 0)).length = w - (trimmed w n).length := by
    have := congrArg length hsplit
    rw [length_append, length_beBytes] at this
    omega
  have hzeros : (beBytes w n).takeWhile (· == 0) = replicate (w - (trimmed w n).length) 0 :=
    eq_replicate_iff.mpr ⟨hlen, fun b hb => by simpa using mem_takeWhile_imp hb⟩
  rw [← hzeros, hsplit]

variable {m n w : Nat} {x y : List UInt8}

/-- A number that fits in the width is determined by its trimmed bytes. -/
theorem trimmed_inj (hm : m < 256 ^ w) (hn : n < 256 ^ w) (h : trimmed w m = trimmed w n) : m = n := by
  refine beBytes_inj hm hn ?_
  rw [beBytes_eq_append w m, beBytes_eq_append w n, h]

theorem length_trimmed_le (w n : Nat) : (trimmed w n).length ≤ w := by
  have := congrArg length (beBytes_eq_append w n)
  rw [length_beBytes, length_append, length_replicate] at this
  omega

theorem trimmed_ne_nil (hn : n < 256 ^ w) (h : 0 < n) : trimmed w n ≠ [] := by
  intro hnil
  have hzero : trimmed w 0 = [] := by
    have hbytes : ∀ w, leBytes w 0 = replicate w 0 := by
      intro w
      induction w with
      | zero => rfl
      | succ w ih => rw [leBytes, ih, replicate_succ]; rfl
    rw [trimmed, beBytes, hbytes, reverse_replicate, dropWhile_eq_nil_iff]
    simp
  have := trimmed_inj hn (Nat.pow_pos (by norm_num)) (hnil.trans hzero.symm)
  omega

/-- The first byte of a header and what follows it, for a payload below `2 ^ 64`. -/
theorem header_cases (list : Bool) (hn : n < 256 ^ 8) :
    n < 56 ∧ header list n = [UInt8.ofNat ((if list then 0xc0 else 0x80) + n)] ∨
      56 ≤ n ∧ ∃ k, 0 < k ∧ k ≤ 8 ∧ (trimmed 8 n).length = k ∧
        header list n = UInt8.ofNat ((if list then 0xc0 else 0x80) + 55 + k) :: trimmed 8 n := by
  unfold header
  split
  · rename_i h
    exact .inl ⟨h, rfl⟩
  · rename_i h
    have hpos := length_pos_iff.mpr (trimmed_ne_nil hn (by omega))
    refine .inr ⟨by omega, (trimmed 8 n).length, hpos, length_trimmed_le 8 n, rfl, ?_⟩
    cases list <;> rfl

theorem ofNat_inj {a b : Nat} (ha : a < 256) (hb : b < 256) (h : UInt8.ofNat a = UInt8.ofNat b) : a = b := by
  have := congrArg UInt8.toNat h
  simpa [Nat.mod_eq_of_lt ha, Nat.mod_eq_of_lt hb] using this

/-- A header is read off the front of a string of bytes, with what it is the header of. -/
theorem header_append_inj {list list' : Bool} (hn : n < 256 ^ 8) (hm : m < 256 ^ 8)
    (h : header list n ++ x = header list' m ++ y) : list = list' ∧ n = m ∧ x = y := by
  have hbase : ∀ l : Bool, ∃ base, (if l then 0xc0 else 0x80) = base ∧ (base = 0x80 ∧ l = false ∨ base = 0xc0 ∧ l = true) := by
    intro l
    cases l <;> simp
  obtain ⟨base, hb, hl⟩ := hbase list
  obtain ⟨base', hb', hl'⟩ := hbase list'
  have hlist : base = base' → list = list' := by
    rcases hl with ⟨rfl, rfl⟩ | ⟨rfl, rfl⟩ <;> rcases hl' with ⟨rfl, rfl⟩ | ⟨rfl, rfl⟩ <;> simp
  rcases header_cases list hn with ⟨hn', hN⟩ | ⟨hn', k, hk, hk', hlen, hN⟩ <;>
    rcases header_cases list' hm with ⟨hm', hM⟩ | ⟨hm', j, hj, hj', hlen', hM⟩ <;>
    rw [hN, hM, cons_append, cons_append, cons.injEq, hb, hb'] at h <;>
    obtain ⟨hfirst, hrest⟩ := h <;>
    have hsame := ofNat_inj (by omega) (by omega) hfirst
  · exact ⟨hlist (by omega), by omega, hrest⟩
  · omega
  · omega
  · obtain ⟨htrim, hxy⟩ := append_inj hrest (by omega)
    exact ⟨hlist (by omega), trimmed_inj hn hm htrim, hxy⟩

/-- The encoding of a string other than a small byte. -/
theorem string_eq (bs : List UInt8) :
    (∃ b, bs = [b] ∧ b < 0x80 ∧ string bs = [b]) ∨ string bs = header false bs.length ++ bs := by
  match bs with
  | [] => exact .inr rfl
  | [b] =>
    by_cases h : b < 0x80
    · exact .inl ⟨b, rfl, h, by simp [string, h]⟩
    · exact .inr (by simp [string, h])
  | _ :: _ :: _ => exact .inr rfl

/-- The first byte of a header is at least `0x80`. -/
theorem header_append_ne {list : Bool} (hn : n < 256 ^ 8) {b : UInt8} (hb : b < 0x80) : header list n ++ x ≠ b :: y := by
  intro h
  have hb' : b.toNat < 128 := hb
  have hbase : 128 ≤ (if list then 0xc0 else 0x80) ∧ (if list then 0xc0 else 0x80) ≤ 192 := by cases list <;> decide
  rcases header_cases list hn with ⟨hn', hN⟩ | ⟨-, k, hk, hk', -, hN⟩ <;>
    rw [hN, cons_append, cons.injEq] at h <;>
    · have := congrArg UInt8.toNat h.1
      rw [UInt8.toNat_ofNat', Nat.mod_eq_of_lt (by omega)] at this
      omega

/-- Encodings that are read off the front of a string of bytes one at a time determine the encoded values. -/
theorem flatten_map_inj {α : Type} {encode : α → List UInt8} (fits : α → Prop) (hne : ∀ a, encode a ≠ [])
    (hread : ∀ {a b x y}, fits a → fits b → encode a ++ x = encode b ++ y → a = b ∧ x = y) {l m : List α}
    (hl : ∀ a ∈ l, fits a) (hm : ∀ a ∈ m, fits a) (h : (l.map encode).flatten = (m.map encode).flatten) : l = m := by
  induction l generalizing m with
  | nil =>
    cases m with
    | nil => rfl
    | cons b m =>
      rw [map_cons, flatten_cons] at h
      exact absurd (append_eq_nil_iff.mp h.symm).1 (hne b)
  | cons a l ih =>
    cases m with
    | nil =>
      rw [map_cons, flatten_cons] at h
      exact absurd (append_eq_nil_iff.mp h).1 (hne a)
    | cons b m =>
      rw [forall_mem_cons] at hl hm
      rw [map_cons, map_cons, flatten_cons, flatten_cons] at h
      obtain ⟨rfl, hrest⟩ := hread hl.1 hm.1 h
      rw [ih hl.2 hm.2 hrest]

/-! ## Items -/

/-- What RLP encodes: byte strings and lists of items. -/
inductive Item
  | string (bytes : List UInt8)
  | list (items : List Item)

namespace Item

mutual

def encode : Item → List UInt8
  | string bytes => Rlp.string bytes
  | list items => header true (encodeAll items).length ++ encodeAll items

/-- The encodings of several items. -/
def encodeAll : List Item → List UInt8
  | [] => []
  | item :: rest => item.encode ++ encodeAll rest

end

theorem encodeAll_eq (items : List Item) : encodeAll items = (items.map encode).flatten := by
  induction items with
  | nil => rfl
  | cons item rest ih => rw [encodeAll, ih, map_cons, flatten_cons]

@[simp] theorem encode_list (items : List Item) : (list items).encode = Rlp.list (items.map encode) := by
  rw [encode, encodeAll_eq, Rlp.list]

@[simp] theorem encode_string (bytes : List UInt8) : (string bytes).encode = Rlp.string bytes :=
  rfl

/-- What follows the header. -/
def payload : Item → List UInt8
  | string bytes => bytes
  | list items => encodeAll items

def isList : Item → Bool
  | string _ => false
  | list _ => true

/-- An item is a small byte, or has a header. -/
theorem encode_cases (item : Item) : (∃ b, item = string [b] ∧ b < 0x80 ∧ item.encode = [b]) ∨
      item.encode = header item.isList item.payload.length ++ item.payload := by
  cases item with
  | string bytes =>
    rcases string_eq bytes with ⟨b, rfl, hb, h⟩ | h
    · exact .inl ⟨b, rfl, hb, h⟩
    · exact .inr h
  | list items => exact .inr rfl

theorem encode_ne_nil (item : Item) : item.encode ≠ [] := by
  rcases encode_cases item with ⟨b, -, -, h⟩ | h <;> rw [h]
  · simp
  · unfold header
    split_ifs <;> simp

/-- The header and the payload of an item are read off the front of a string of bytes. -/
theorem payload_of_append {i j : Item} (hi : i.encode.length < 256 ^ 8) (hj : j.encode.length < 256 ^ 8)
    (h : i.encode ++ x = j.encode ++ y) : i.isList = j.isList ∧ i.payload = j.payload ∧ x = y := by
  rcases encode_cases i with ⟨b, rfl, hb, hI⟩ | hI <;> rcases encode_cases j with ⟨c, rfl, hc, hJ⟩ | hJ <;>
    rw [hI] at h hi <;> rw [hJ] at h hj
  · obtain ⟨rfl, hxy⟩ := cons.inj h
    exact ⟨rfl, rfl, hxy⟩
  · rw [append_assoc] at h
    rw [length_append] at hj
    exact absurd h.symm (header_append_ne (by omega) hb)
  · rw [append_assoc] at h
    rw [length_append] at hi
    exact absurd h (header_append_ne (by omega) hc)
  · rw [append_assoc, append_assoc] at h
    rw [length_append] at hi hj
    obtain ⟨hlist, hlen, hrest⟩ := header_append_inj (by omega) (by omega) h
    exact ⟨hlist, append_inj hrest hlen⟩

mutual

/-- An item is read off the front of a string of bytes. -/
theorem encode_append_inj (i j : Item) (x y : List UInt8) (hi : i.encode.length < 256 ^ 8) (hj : j.encode.length < 256 ^ 8)
    (h : i.encode ++ x = j.encode ++ y) : i = j ∧ x = y := by
  obtain ⟨hlist, hpayload, hxy⟩ := payload_of_append hi hj h
  refine ⟨?_, hxy⟩
  match i, j with
  | string a, string b => exact congrArg string hpayload
  | list is, list js =>
    rw [encode, length_append] at hi hj
    exact congrArg list (encodeAll_inj is js (by omega) (by omega) hpayload)

/-- Items are read off a string of bytes one by one. -/
theorem encodeAll_inj (is js : List Item) (hi : (encodeAll is).length < 256 ^ 8) (hj : (encodeAll js).length < 256 ^ 8)
    (h : encodeAll is = encodeAll js) : is = js := by
  match is, js with
  | [], [] => rfl
  | [], j :: _ => exact absurd (append_eq_nil_iff.mp h.symm).1 (encode_ne_nil j)
  | i :: _, [] => exact absurd (append_eq_nil_iff.mp h).1 (encode_ne_nil i)
  | i :: is, j :: js =>
    rw [encodeAll, length_append] at hi hj
    obtain ⟨hij, hrest⟩ := encode_append_inj i j _ _ (by omega) (by omega) h
    rw [hij, encodeAll_inj is js (by omega) (by omega) hrest]

end

theorem encode_inj {i j : Item} (hi : i.encode.length < 256 ^ 8) (hj : j.encode.length < 256 ^ 8) (h : i.encode = j.encode) :
    i = j :=
  (encode_append_inj i j [] [] hi hj (by rw [h])).1

end Item

end Rlp
