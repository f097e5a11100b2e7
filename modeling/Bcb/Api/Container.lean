import Bcb.Api.Defs

namespace Bcb.Api

theorem or_shiftLeft {v x k w : Nat} (hv : v < 2 ^ k) (hx : x * 2 ^ k < 2 ^ w) :
    v ||| x <<< k % 2 ^ w = v + x * 2 ^ k := by
  rw [Nat.shiftLeft_eq, Nat.mod_eq_of_lt hx, Nat.or_comm, Nat.mul_comm x,
    ← Nat.two_pow_add_eq_or_of_lt hv, Nat.add_comm]

theorem varintPutGroups_length (n v : Nat) : (varintPutGroups n v).length ≤ n := by
  induction n generalizing v with
  | zero => exact le_rfl
  | succ n ih =>
    rw [varintPutGroups]
    split_ifs
    · simp
    · exact Nat.succ_le_succ (ih _)

theorem varintPut_length (v : Nat) : (varintPut v).length ≤ 10 := varintPutGroups_length 10 v

theorem varintGetFrom_put (n : Nat) {v x i : Nat} (rest : List UInt8) (hv : v < 2 ^ (7 * i))
    (hx : x * 2 ^ (7 * i) < 2 ^ 64) (hn : x < 128 ^ (n + 1)) :
    varintGetFrom v i (n + 1) (varintPutGroups (n + 1) x ++ rest) =
      some (v + x * 2 ^ (7 * i), i + (varintPutGroups (n + 1) x).length) := by
  induction n generalizing v x i with
  | zero =>
    have h0 : x / 128 = 0 := by omega
    have hmod : x % 128 = x := by omega
    have hbyte : (UInt8.ofNat x).toNat = x := Nat.mod_eq_of_lt (by omega)
    simp only [varintPutGroups, h0, if_true, hmod, List.singleton_append, varintGetFrom, hbyte,
      if_pos (by omega : x < 128), or_shiftLeft hv hx, List.length_singleton]
  | succ n ih =>
    rw [varintPutGroups]
    split_ifs with h0
    · have hmod : x % 128 = x := by omega
      have hbyte : (UInt8.ofNat x).toNat = x := Nat.mod_eq_of_lt (by omega)
      simp only [hmod, List.singleton_append, varintGetFrom, hbyte, if_pos (by omega : x < 128),
        or_shiftLeft hv hx, List.length_singleton]
    · have hbyte : (UInt8.ofNat (x % 128 + 128)).toNat = x % 128 + 128 :=
        Nat.mod_eq_of_lt (by omega)
      have hlow : (x % 128 + 128) % 128 = x % 128 := by omega
      have hpow : 2 ^ (7 * (i + 1)) = 128 * 2 ^ (7 * i) := by rw [Nat.mul_succ, pow_add]; ring
      have hx' : x % 128 * 2 ^ (7 * i) < 2 ^ 64 :=
        (Nat.mul_le_mul_right _ (Nat.mod_le x 128)).trans_lt hx
      have hv' : v + x % 128 * 2 ^ (7 * i) < 2 ^ (7 * (i + 1)) := by
        have hle : x % 128 * 2 ^ (7 * i) ≤ 127 * 2 ^ (7 * i) :=
          Nat.mul_le_mul_right _ (by omega)
        omega
      have hsplit : x * 2 ^ (7 * i) = x % 128 * 2 ^ (7 * i) + x / 128 * 2 ^ (7 * (i + 1)) := by
        rw [hpow]
        calc x * 2 ^ (7 * i) = (x % 128 + 128 * (x / 128)) * 2 ^ (7 * i) := by
              rw [Nat.mod_add_div]
          _ = _ := by ring
      have hih := ih (x := x / 128) (i := i + 1) hv' (by omega)
        (by rw [Nat.div_lt_iff_lt_mul (by norm_num), ← pow_succ]; exact hn)
      rw [List.cons_append, varintGetFrom]
      simp only [hbyte, hlow, or_shiftLeft hv hx', if_neg (by omega : ¬ x % 128 + 128 < 128), hih,
        List.length_cons]
      rw [hsplit]
      simp only [Option.some.injEq, Prod.mk.injEq]
      omega

theorem varintGet_put {v : Nat} (h : v < 2 ^ 64) (rest : List UInt8) :
    varintGet (varintPut v ++ rest) = some (v, (varintPut v).length) := by
  have hput := varintGetFrom_put 9 (v := 0) (x := v) (i := 0) rest (by norm_num) (by simpa using h)
    (by omega)
  simpa [varintGet, varintPut] using hput

@[simp]
theorem le32_le32Bytes (c : UInt32) (rest : List UInt8) : le32 (le32Bytes c ++ rest) = c := by
  have hbyte (k : UInt32) : ((c >>> k).toUInt8.toUInt32).toNat = (c >>> k).toNat % 256 := by simp
  have h0 : (c.toUInt8.toUInt32).toNat = c.toNat % 256 := by simp
  have hc := c.toNat_lt
  apply UInt32.toNat_inj.1
  simp only [le32, le32Bytes, List.cons_append, List.nil_append, List.getD_cons_zero,
    List.getD_cons_succ, UInt32.toNat_or, UInt32.toNat_shiftLeft, hbyte, h0,
    UInt32.toNat_shiftRight, Nat.shiftRight_eq_div_pow]
  have h8 : UInt32.toNat 8 % 32 = 8 := rfl
  have h16 : UInt32.toNat 16 % 32 = 16 := rfl
  have h24 : UInt32.toNat 24 % 32 = 24 := rfl
  have hor8 := or_shiftLeft (v := c.toNat % 256) (x := c.toNat / 2 ^ 8 % 256) (k := 8) (w := 32)
    (by omega) (by omega)
  have hor16 := or_shiftLeft (v := c.toNat % 256 + c.toNat / 2 ^ 8 % 256 * 2 ^ 8)
    (x := c.toNat / 2 ^ 16 % 256) (k := 16) (w := 32) (by omega) (by omega)
  have hor24 := or_shiftLeft (v := c.toNat % 256 + c.toNat / 2 ^ 8 % 256 * 2 ^ 8 +
    c.toNat / 2 ^ 16 % 256 * 2 ^ 16) (x := c.toNat / 2 ^ 24 % 256) (k := 24) (w := 32)
    (by omega) (by omega)
  rw [h8, h16, h24, hor8, hor16, hor24]
  omega

theorem tagOf_bits : ∀ crcOn idOn sd : Bool,
    (decide (tagOf crcOn idOn sd &&& tagCrc ≠ 0) = crcOn ∧
      decide (tagOf crcOn idOn sd &&& tagId ≠ 0) = idOn) ∧
      decide (tagOf crcOn idOn sd &&& tagSdelta ≠ 0) = sd := by decide

theorem takeCrc_header (crcOn idOn sd : Bool) (crc : UInt32) (rest : List UInt8) :
    takeCrc (tagOf crcOn idOn sd) ((if crcOn then le32Bytes crc else []) ++ rest) =
      .ok (if crcOn then some crc else none, rest) := by
  have hbit := (tagOf_bits crcOn idOn sd).1.1
  cases crcOn with
  | true =>
    have hlen : ¬ (le32Bytes crc ++ rest).length < 4 := by simp [le32Bytes]
    rw [takeCrc, if_pos (of_decide_eq_true hbit), if_pos rfl, if_neg hlen, le32_le32Bytes]
    rfl
  | false =>
    rw [takeCrc, if_neg (of_decide_eq_false hbit)]
    rfl

theorem takeId_header (crcOn idOn sd : Bool) {id : List UInt8} (hid : id.length = priorIdLen)
    (rest : List UInt8) :
    takeId id (tagOf crcOn idOn sd) ((if idOn then id else []) ++ rest) = .ok rest := by
  have hbit := (tagOf_bits crcOn idOn sd).1.2
  cases idOn with
  | true =>
    have hlen : ¬ (id ++ rest).length < priorIdLen := by simp [hid]
    have htake : (id ++ rest).take priorIdLen = id := List.take_left' hid
    have hdrop : (id ++ rest).drop priorIdLen = rest := List.drop_left' hid
    rw [takeId, if_pos (of_decide_eq_true hbit), if_pos rfl, if_neg hlen, htake,
      if_neg (not_not.2 rfl), hdrop]
    rfl
  | false =>
    rw [takeId, if_neg (of_decide_eq_false hbit)]
    rfl

theorem parseFrame_fields (crcOn idOn sd : Bool) {id : List UInt8} {n : Nat}
    (hid : id.length = priorIdLen) (hn : n < 2 ^ 64) (crc : UInt32) (payload : List UInt8) :
    parseFrame id (tagOf crcOn idOn sd :: (varintPut n ++
        ((if crcOn then le32Bytes crc else []) ++ (if idOn then id else []))) ++ payload) =
      .ok ⟨tagOf crcOn idOn sd, n, if crcOn then some crc else none, payload⟩ := by
  rw [List.cons_append, List.append_assoc]
  simp only [parseFrame, varintGet_put hn, List.drop_left]
  rw [List.append_assoc, takeCrc_header]
  change (takeId id (tagOf crcOn idOn sd) ((if idOn then id else []) ++ payload) >>= _) = _
  rw [takeId_header crcOn idOn sd hid]
  rfl

theorem parseFrame_header (crcOn idOn sd : Bool) {id : List UInt8} (hid : id.length = priorIdLen)
    (msg : List UInt8) (hmsg : msg.length < 2 ^ 64) (payload : List UInt8) :
    parseFrame id (containerHeader crcOn idOn sd id msg ++ payload) =
      .ok ⟨tagOf crcOn idOn sd, msg.length, if crcOn then some (crc32 msg) else none, payload⟩ :=
  parseFrame_fields crcOn idOn sd hid hmsg (crc32 msg) payload

theorem containerHeader_length (crcOn idOn sd : Bool) {id : List UInt8} (msg : List UInt8)
    (hid : id.length = priorIdLen) : (containerHeader crcOn idOn sd id msg).length ≤ 31 := by
  have hput := varintPut_length msg.length
  have hcrc : (if crcOn then le32Bytes (crc32 msg) else []).length ≤ 4 := by
    cases crcOn <;> simp [le32Bytes]
  have hid : (if idOn then id else []).length ≤ 16 := by
    cases idOn <;> simp [hid, priorIdLen]
  simp only [containerHeader, List.length_cons, List.length_append]
  omega

namespace Buffer

@[simp] theorem read_write_write (out : Buffer) (l m : List UInt8) :
    ((out.write 0 l).write l.length m).read (l.length + m.length) = l ++ m := by
  apply List.ext_getElem
  · simp [read]
  · intro i h1 h2
    have hi : i < l.length + m.length := by simpa [read] using h1
    simp only [read, List.getElem_map, List.getElem_range, write]
    by_cases hl : i < l.length
    · rw [List.getElem_append_left hl, if_neg (by omega), if_pos (by omega)]
      simp [hl]
    · rw [List.getElem_append_right (by omega), if_pos (by omega)]
      simp [List.getD_eq_getElem?_getD, List.getElem?_eq_getElem (by omega : i - l.length < m.length)]

@[simp] theorem read_write (out : Buffer) (l : List UInt8) : (out.write 0 l).read l.length = l := by
  apply List.ext_getElem
  · simp [read]
  · intro i h1 h2
    simp only [read, List.getElem_map, List.getElem_range, write]
    rw [if_pos (by omega)]
    simp [h2]

end Buffer

end Bcb.Api
