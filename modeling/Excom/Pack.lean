import Excom.Memory

/-!
# Packing integers

`excom/protocol/pack.c`.  The packers store the bytes of the value through a running pointer and one more zero
byte after them (except `pack_uint8_t`); the unpackers read through a union.  Which bytes come out depends on
the host's byte order; on a little-endian host they are those of the network byte order, and unpacking undoes
packing.
-/

namespace Excom

/-- Stores at successive places from `i` on. -/
def storeBytes (dest : Bytes) (i : Nat) : Bytes → Bytes
  | [] => dest
  | b :: bs => storeBytes (dest.set i b) (i + 1) bs

variable (E : Env)

/-- The value of a `uint32_t` that lies in memory as the given bytes. -/
def nativeUint32 (d0 d1 d2 d3 : UInt8) : UInt32 :=
  if E.littleEndian then
    UInt32.ofNat (d0.toNat + d1.toNat * 2 ^ 8 + d2.toNat * 2 ^ 16 + d3.toNat * 2 ^ 24)
  else UInt32.ofNat (d3.toNat + d2.toNat * 2 ^ 8 + d1.toNat * 2 ^ 16 + d0.toNat * 2 ^ 24)

def nativeUint16 (d0 d1 : UInt8) : UInt16 :=
  if E.littleEndian then UInt16.ofNat (d0.toNat + d1.toNat * 2 ^ 8)
  else UInt16.ofNat (d1.toNat + d0.toNat * 2 ^ 8)

/-- `htonl` and `ntohl` on a host that calls them: a byte swap on a little-endian one, otherwise nothing. -/
def htonl (n : UInt32) : UInt32 :=
  if E.littleEndian then
    UInt32.ofNat (n.toNat / 2 ^ 24 % 2 ^ 8 + n.toNat / 2 ^ 16 % 2 ^ 8 * 2 ^ 8 +
      n.toNat / 2 ^ 8 % 2 ^ 8 * 2 ^ 16 + n.toNat % 2 ^ 8 * 2 ^ 24)
  else n

def htons (n : UInt16) : UInt16 :=
  if E.littleEndian then UInt16.ofNat (n.toNat / 2 ^ 8 % 2 ^ 8 + n.toNat % 2 ^ 8 * 2 ^ 8) else n

/-- `excom_protocol_pack_uint32_t`: the count it returns, and `dest` after its stores. -/
def packUint32 (dest : Bytes) (n : UInt32) : Nat × Bytes :=
  let net := if E.littleEndian then htonl E n else n
  -- the bytes `net >> part` for `part = 0, 8, 16, 24`, and the store after the loop
  (4, storeBytes dest 0 ([0, 8, 16, 24].map (fun part => UInt8.ofNat (net.toNat >>> part)) ++ [0]))

/-- `excom_protocol_unpack_uint32_t` -/
def unpackUint32 (src : Bytes) : UInt32 :=
  let r := nativeUint32 E (src.getD 0 0) (src.getD 1 0) (src.getD 2 0) (src.getD 3 0)
  if E.littleEndian then htonl E r else r

/-- `excom_protocol_pack_uint16_t` -/
def packUint16 (dest : Bytes) (n : UInt16) : Nat × Bytes :=
  let net := if E.littleEndian then htons E n else n
  (2, storeBytes dest 0 ([0, 8].map (fun part => UInt8.ofNat (net.toNat >>> part)) ++ [0]))

/-- `excom_protocol_unpack_uint16_t` -/
def unpackUint16 (src : Bytes) : UInt16 :=
  let r := nativeUint16 E (src.getD 0 0) (src.getD 1 0)
  if E.littleEndian then htons E r else r

/-- `excom_protocol_pack_uint8_t` -/
def packUint8 (dest : Bytes) (n : UInt8) : Nat × Bytes := (1, dest.set 0 n)

/-- `excom_protocol_unpack_uint8_t` -/
def unpackUint8 (src : Bytes) : UInt8 := src.getD 0 0

/-! ### The bytes that are put on the wire -/

/-- The four bytes `excom_protocol_pack_uint32_t` leaves in a scratch array of four. -/
def wire32 (n : UInt32) : Bytes := (packUint32 E [0, 0, 0, 0] n).2

/-- The first two bytes `excom_protocol_pack_uint16_t` leaves there. -/
def wire16 (n : UInt16) : Bytes := (packUint16 E [0, 0, 0, 0] n).2.take 2

variable {E}

@[simp] theorem length_wire32 (n : UInt32) : (wire32 E n).length = 4 := rfl

@[simp] theorem length_wire16 (n : UInt16) : (wire16 E n).length = 2 := rfl

/-- What is in the scratch array before does not matter. -/
theorem packUint16_scratch (dest : Bytes) (h : dest.length = 4) (n : UInt16) :
    (packUint16 E dest n).1 = 2 ∧ (packUint16 E dest n).2.take 2 = wire16 E n ∧
      (packUint16 E dest n).2.length = 4 := by
  rcases dest with _ | ⟨a, _ | ⟨b, _ | ⟨c, _ | ⟨d, _ | ⟨e, t⟩⟩⟩⟩⟩ <;> simp at h
  exact ⟨rfl, rfl, rfl⟩

private theorem exists_quad {n : Nat} (hn : n < 2 ^ 32) : ∃ a b c d : UInt8,
    n = a.toNat + b.toNat * 2 ^ 8 + c.toNat * 2 ^ 16 + d.toNat * 2 ^ 24 :=
  ⟨.ofNat n, .ofNat (n / 2 ^ 8), .ofNat (n / 2 ^ 16), .ofNat (n / 2 ^ 24), by
    simp only [UInt8.toNat_ofNat']; omega⟩

private theorem quad_bytes (a b c d : UInt8) {n : Nat}
    (h : n = a.toNat + b.toNat * 2 ^ 8 + c.toNat * 2 ^ 16 + d.toNat * 2 ^ 24) :
    n % 2 ^ 8 = a.toNat ∧ n / 2 ^ 8 % 2 ^ 8 = b.toNat ∧ n / 2 ^ 16 % 2 ^ 8 = c.toNat ∧
      n / 2 ^ 24 % 2 ^ 8 = d.toNat ∧ n % 2 ^ 32 = n := by
  have := a.toNat_lt; have := b.toNat_lt; have := c.toNat_lt; have := d.toNat_lt
  refine ⟨?_, ?_, ?_, ?_, ?_⟩ <;> omega

private theorem ofNat_byte {x : UInt8} {k : Nat} (h : k % 2 ^ 8 = x.toNat) : UInt8.ofNat k = x :=
  UInt8.toNat_inj.1 (by rw [UInt8.toNat_ofNat', h])

private theorem exists_pair {n : Nat} (hn : n < 2 ^ 16) : ∃ a b : UInt8, n = a.toNat + b.toNat * 2 ^ 8 :=
  ⟨.ofNat n, .ofNat (n / 2 ^ 8), by simp only [UInt8.toNat_ofNat']; omega⟩

private theorem pair_bytes (a b : UInt8) {n : Nat} (h : n = a.toNat + b.toNat * 2 ^ 8) :
    n % 2 ^ 8 = a.toNat ∧ n / 2 ^ 8 % 2 ^ 8 = b.toNat ∧ n % 2 ^ 16 = n := by
  have := a.toNat_lt; have := b.toNat_lt
  refine ⟨?_, ?_, ?_⟩ <;> omega

private theorem htonl_quad (hE : E.littleEndian = true) {n : UInt32} (a b c d : UInt8)
    (h : n.toNat = a.toNat + b.toNat * 2 ^ 8 + c.toNat * 2 ^ 16 + d.toNat * 2 ^ 24) :
    (htonl E n).toNat = d.toNat + c.toNat * 2 ^ 8 + b.toNat * 2 ^ 16 + a.toNat * 2 ^ 24 := by
  obtain ⟨ha, hb, hc, hd, -⟩ := quad_bytes a b c d h
  simp only [htonl, hE, if_true, UInt32.toNat_ofNat', ha, hb, hc, hd]
  exact (quad_bytes d c b a rfl).2.2.2.2

private theorem htons_pair (hE : E.littleEndian = true) {n : UInt16} (a b : UInt8)
    (h : n.toNat = a.toNat + b.toNat * 2 ^ 8) : (htons E n).toNat = b.toNat + a.toNat * 2 ^ 8 := by
  obtain ⟨ha, hb, -⟩ := pair_bytes a b h
  simp only [htons, hE, if_true, UInt16.toNat_ofNat', ha, hb]
  exact (pair_bytes b a rfl).2.2

/-- The unpackers read the network byte order, whatever the host. -/
theorem unpackUint32_bytes (a b c d : UInt8) :
    (unpackUint32 E [d, c, b, a]).toNat = a.toNat + b.toNat * 2 ^ 8 + c.toNat * 2 ^ 16 + d.toNat * 2 ^ 24 := by
  by_cases hE : E.littleEndian = true
  · simp only [unpackUint32, hE, if_true, List.getD_cons_zero, List.getD_cons_succ]
    refine htonl_quad hE d c b a ?_
    simp only [nativeUint32, hE, if_true, UInt32.toNat_ofNat']
    exact (quad_bytes d c b a rfl).2.2.2.2
  · simp only [unpackUint32, nativeUint32, hE, if_false, Bool.false_eq_true, List.getD_cons_zero,
      List.getD_cons_succ, UInt32.toNat_ofNat']
    exact (quad_bytes a b c d rfl).2.2.2.2

theorem unpackUint16_bytes (a b : UInt8) :
    (unpackUint16 E [b, a]).toNat = a.toNat + b.toNat * 2 ^ 8 := by
  by_cases hE : E.littleEndian = true
  · simp only [unpackUint16, hE, if_true, List.getD_cons_zero, List.getD_cons_succ]
    refine htons_pair hE b a ?_
    simp only [nativeUint16, hE, if_true, UInt16.toNat_ofNat']
    exact (pair_bytes b a rfl).2.2
  · simp only [unpackUint16, nativeUint16, hE, if_false, Bool.false_eq_true, List.getD_cons_zero,
      List.getD_cons_succ, UInt16.toNat_ofNat']
    exact (pair_bytes a b rfl).2.2

private theorem wire32_eq {n net : UInt32} (hnet : net = if E.littleEndian then htonl E n else n)
    (a b c d : UInt8) (h : net.toNat = a.toNat + b.toNat * 2 ^ 8 + c.toNat * 2 ^ 16 + d.toNat * 2 ^ 24) :
    wire32 E n = [a, b, c, d] := by
  obtain ⟨ha, hb, hc, hd, -⟩ := quad_bytes a b c d h
  simp only [wire32, packUint32, ← hnet, storeBytes, List.map_cons, List.map_nil, List.cons_append,
    List.nil_append, List.set_cons_zero, List.set_cons_succ, List.set_nil, Nat.shiftRight_eq_div_pow,
      Nat.pow_zero,
    Nat.div_one, ofNat_byte ha, ofNat_byte hb, ofNat_byte hc, ofNat_byte hd]

private theorem wire16_eq {n net : UInt16} (hnet : net = if E.littleEndian then htons E n else n)
    (a b : UInt8) (h : net.toNat = a.toNat + b.toNat * 2 ^ 8) : wire16 E n = [a, b] := by
  obtain ⟨ha, hb, -⟩ := pair_bytes a b h
  simp only [wire16, packUint16, ← hnet, storeBytes, List.map_cons, List.map_nil, List.cons_append,
    List.nil_append, List.set_cons_zero, List.set_cons_succ, List.take_succ_cons, List.take_zero,
    Nat.shiftRight_eq_div_pow, Nat.pow_zero, Nat.div_one, ofNat_byte ha, ofNat_byte hb]

/-- On a little-endian host unpacking undoes packing. -/
theorem unpackUint32_wire32 (hE : E.littleEndian = true) (n : UInt32) : unpackUint32 E (wire32 E n) = n := by
  obtain ⟨a, b, c, d, h⟩ := exists_quad n.toNat_lt
  rw [wire32_eq (by rw [hE, if_pos rfl]) d c b a (htonl_quad hE a b c d h)]
  exact UInt32.toNat_inj.1 ((unpackUint32_bytes a b c d).trans h.symm)

/-- What was packed is unpacked again. -/
theorem unpackUint16_wire16 (hE : E.littleEndian = true) (n : UInt16) : unpackUint16 E (wire16 E n) = n := by
  obtain ⟨a, b, h⟩ := exists_pair n.toNat_lt
  rw [wire16_eq (by rw [hE, if_pos rfl]) b a (htons_pair hE a b h)]
  exact UInt16.toNat_inj.1 ((unpackUint16_bytes a b).trans h.symm)

/-- On a big-endian host the packers put the least significant byte first, so what is unpacked is swapped. -/
theorem unpackUint16_wire16_big (hE : E.littleEndian = false) (n : UInt16) :
    (unpackUint16 E (wire16 E n)).toNat = n.toNat / 2 ^ 8 + n.toNat % 2 ^ 8 * 2 ^ 8 := by
  obtain ⟨a, b, h⟩ := exists_pair n.toNat_lt
  obtain ⟨ha, hb, -⟩ := pair_bytes a b h
  rw [wire16_eq (by rw [hE, if_neg (by decide)]) a b h, unpackUint16_bytes, ha]
  omega

/-! ### From host to host -/

/-- The bytes of a `uint32_t`, the most significant one first. -/
def networkOrder32 (n : UInt32) : Bytes := [24, 16, 8, 0].map fun part => UInt8.ofNat (n.toNat >>> part)

def networkOrder16 (n : UInt16) : Bytes := [8, 0].map fun part => UInt8.ofNat (n.toNat >>> part)

/-- Wherever there is room for it, `pack` leaves `n` in network order, and `unpack` gets `n` from there. -/
def Portable {α : Type} (order : α → Bytes) (pack : Bytes → α → Nat × Bytes) (unpack : Bytes → α) (n : α) :
    Prop :=
  ∀ dest : Bytes, (order n).length ≤ dest.length →
    (pack dest n).2.take (order n).length = order n ∧ unpack (pack dest n).2 = n

@[simp] theorem length_networkOrder32 (n : UInt32) : (networkOrder32 n).length = 4 := rfl

@[simp] theorem length_networkOrder16 (n : UInt16) : (networkOrder16 n).length = 2 := rfl

private theorem networkOrder32_quad {n : UInt32} (a b c d : UInt8)
    (h : n.toNat = a.toNat + b.toNat * 2 ^ 8 + c.toNat * 2 ^ 16 + d.toNat * 2 ^ 24) :
    networkOrder32 n = [d, c, b, a] := by
  obtain ⟨ha, hb, hc, hd, -⟩ := quad_bytes a b c d h
  simp only [networkOrder32, List.map_cons, List.map_nil, Nat.shiftRight_eq_div_pow, Nat.pow_zero, Nat.div_one,
    ofNat_byte ha, ofNat_byte hb, ofNat_byte hc, ofNat_byte hd]

private theorem networkOrder16_pair {n : UInt16} (a b : UInt8) (h : n.toNat = a.toNat + b.toNat * 2 ^ 8) :
    networkOrder16 n = [b, a] := by
  obtain ⟨ha, hb, -⟩ := pair_bytes a b h
  simp only [networkOrder16, List.map_cons, List.map_nil, Nat.shiftRight_eq_div_pow, Nat.pow_zero, Nat.div_one,
    ofNat_byte ha, ofNat_byte hb]

/-- A little-endian host swaps the bytes and stores the least significant one first; the others only store. -/
theorem wire32_networkOrder (n : UInt32) :
    wire32 E n = if E.littleEndian then networkOrder32 n else (networkOrder32 n).reverse := by
  obtain ⟨a, b, c, d, h⟩ := exists_quad n.toNat_lt
  rw [networkOrder32_quad a b c d h]
  by_cases hE : E.littleEndian = true
  · rw [if_pos hE, wire32_eq (by rw [hE, if_pos rfl]) d c b a (htonl_quad hE a b c d h)]
  · rw [if_neg hE, wire32_eq (by rw [if_neg hE]) a b c d h]
    rfl

private theorem wire16_networkOrder (n : UInt16) :
    wire16 E n = if E.littleEndian then networkOrder16 n else (networkOrder16 n).reverse := by
  obtain ⟨a, b, h⟩ := exists_pair n.toNat_lt
  rw [networkOrder16_pair a b h]
  by_cases hE : E.littleEndian = true
  · rw [if_pos hE, wire16_eq (by rw [hE, if_pos rfl]) b a (htons_pair hE a b h)]
  · rw [if_neg hE, wire16_eq (by rw [if_neg hE]) a b h]
    rfl

/-- Every host unpacks the network order. -/
theorem unpackUint32_networkOrder (n : UInt32) (rest : Bytes) :
    unpackUint32 E (networkOrder32 n ++ rest) = n := by
  obtain ⟨a, b, c, d, h⟩ := exists_quad n.toNat_lt
  rw [networkOrder32_quad a b c d h]
  exact UInt32.toNat_inj.1 ((unpackUint32_bytes a b c d).trans h.symm)

private theorem unpackUint16_networkOrder (n : UInt16) (rest : Bytes) :
    unpackUint16 E (networkOrder16 n ++ rest) = n := by
  obtain ⟨a, b, h⟩ := exists_pair n.toNat_lt
  rw [networkOrder16_pair a b h]
  exact UInt16.toNat_inj.1 ((unpackUint16_bytes a b).trans h.symm)

/-- On a little-endian host the bytes that were unpacked are the ones that are packed. -/
theorem wire32_unpackUint32 (hE : E.littleEndian = true) {bs : Bytes} (h : bs.length = 4) :
    wire32 E (unpackUint32 E bs) = bs := by
  obtain ⟨a, b, c, d, rfl⟩ := List.length_eq_four.1 h
  rw [wire32_networkOrder, if_pos hE, networkOrder32_quad d c b a (unpackUint32_bytes d c b a)]

/-- What was unpacked is packed again. -/
theorem wire16_unpackUint16 (hE : E.littleEndian = true) {bs : Bytes} (h : bs.length = 2) :
    wire16 E (unpackUint16 E bs) = bs := by
  obtain ⟨a, b, rfl⟩ := List.length_eq_two.1 h
  rw [wire16_networkOrder, if_pos hE, networkOrder16_pair b a (unpackUint16_bytes b a)]

/-- Where there is room, the packers leave at the destination what they leave in the scratch array. -/
theorem packUint32_dest (dest : Bytes) (h : 4 ≤ dest.length) (n : UInt32) :
    ∃ rest, (packUint32 E dest n).2 = wire32 E n ++ rest := by
  rcases dest with _ | ⟨a, _ | ⟨b, _ | ⟨c, _ | ⟨d, t⟩⟩⟩⟩ <;> simp at h
  exact ⟨t.set 0 0, rfl⟩

theorem packUint16_dest (dest : Bytes) (h : 2 ≤ dest.length) (n : UInt16) :
    ∃ rest, (packUint16 E dest n).2 = wire16 E n ++ rest := by
  rcases dest with _ | ⟨a, _ | ⟨b, t⟩⟩ <;> simp at h
  exact ⟨t.set 0 0, rfl⟩

/-- A packer that leaves `wire` at the destination, and an unpacker that reads the network order -/
private theorem portable_iff {α : Type} {order : α → Bytes} {pack : Bytes → α → Nat × Bytes}
    {unpack : Bytes → α} {n : α} {wire : Bytes} (hlen : wire.length = (order n).length)
    (hpack : ∀ dest : Bytes, (order n).length ≤ dest.length → ∃ rest, (pack dest n).2 = wire ++ rest)
    (hunpack : ∀ rest, unpack (order n ++ rest) = n) : Portable order pack unpack n ↔ wire = order n := by
  constructor
  · intro h
    have hroom : (order n).length ≤ wire.length := Nat.le_of_eq hlen.symm
    obtain ⟨rest, hrest⟩ := hpack wire hroom
    have htake := (h wire hroom).1
    rw [hrest, ← hlen, List.take_left] at htake
    exact htake
  · intro h dest hroom
    obtain ⟨rest, hrest⟩ := hpack dest hroom
    rw [hrest, h]
    exact ⟨List.take_left, hunpack rest⟩

/-- From a sender to a receiver of any byte orders, integers are in network order on the wire, and arrive, if and
only if the sender is little-endian or the bytes of the integer are the same from both ends. -/
theorem portable_network_iff (E E' : Env) :
    (∀ n, Portable networkOrder32 (packUint32 E) (unpackUint32 E') n ↔
      E.littleEndian = true ∨ (networkOrder32 n).reverse = networkOrder32 n) ∧
    ∀ n, Portable networkOrder16 (packUint16 E) (unpackUint16 E') n ↔
      E.littleEndian = true ∨ (networkOrder16 n).reverse = networkOrder16 n := by
  constructor
  · intro n
    have h : Portable networkOrder32 (packUint32 E) (unpackUint32 E') n ↔ wire32 E n = networkOrder32 n :=
      portable_iff rfl (fun dest hroom => packUint32_dest dest hroom n) (unpackUint32_networkOrder n)
    rw [h, wire32_networkOrder]
    by_cases hE : E.littleEndian = true <;> simp [hE]
  · intro n
    have h : Portable networkOrder16 (packUint16 E) (unpackUint16 E') n ↔ wire16 E n = networkOrder16 n :=
      portable_iff rfl (fun dest hroom => packUint16_dest dest hroom n) (unpackUint16_networkOrder n)
    rw [h, wire16_networkOrder]
    by_cases hE : E.littleEndian = true <;> simp [hE]

/-- A big-endian sender puts `1` on the wire as `2 ^ 24`. -/
theorem not_portable_big_endian :
    ¬ Portable networkOrder32 (packUint32 { Env.amd64 0 with littleEndian := false })
      (unpackUint32 (Env.amd64 0)) 1 := by
  intro h
  have hpacked := (h [0, 0, 0, 0] (Nat.le_refl 4)).1
  revert hpacked
  decide

end Excom
