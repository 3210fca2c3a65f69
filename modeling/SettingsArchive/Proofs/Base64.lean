import SettingsArchive.Base64
import SettingsArchive.Text.Blank

/-!
# Bytes read back

Every three bytes are four symbols of six bits, and the symbols give the bytes
again.  Only the last group may be padded, so `decodeGroups` takes it apart
with `decodeLast`, whether it is full or not.
-/

namespace SettingsArchive.Base64

/-- The byte of a symbol. -/
def code (c : Char) : UInt8 :=
  UInt8.ofNat c.toNat

/-- A symbol gives its six bits. -/
theorem value?_code_symbol {v : Nat} (h : v < 64) :
    value? (code (symbol v)) = some v := by
  have hall : ∀ v : Fin 64, value? (code (symbol v)) = some v.1 := by decide
  exact hall ⟨v, h⟩

theorem code_symbol_ne_pad {v : Nat} (h : v < 64) : code (symbol v) ≠ pad := by
  have hall : ∀ v : Fin 64, code (symbol v) ≠ pad := by decide
  exact hall ⟨v, h⟩

theorem readSymbol_code {v : Nat} (h : v < 64) (offset : Nat) :
    readSymbol offset (code (symbol v)) = .ok v := by
  rw [readSymbol, value?_code_symbol h]

/-- Symbols at the front of the last group are read one by one. -/
theorem readLast_symbol {v : Nat} (h : v < 64) (offset index : Nat)
    (bs : List UInt8) :
    readLast offset index (code (symbol v) :: bs) =
      (readLast offset (index + 1) bs).map
        fun (vs, padding) => (v :: vs, padding) := by
  rw [readLast, if_neg (code_symbol_ne_pad h), readSymbol_code h]
  cases readLast offset (index + 1) bs with
  | error fault => rfl
  | ok read => rfl

/-- Padding ends the last group. -/
theorem readLast_pad (offset : Nat) {index : Nat} (h : 2 ≤ index)
    {bs : List UInt8} (hbs : bs.all (· == pad)) :
    readLast offset index (pad :: bs) = .ok ([], bs.length + 1) := by
  rw [readLast, if_pos rfl, if_neg (by omega), if_pos hbs]

/-! ## The last group -/

/-- Two symbols and two padding signs give one byte. -/
theorem decodeLast_of_two {offset : Nat} {group : List UInt8} {u v : Nat}
    (h : readLast offset 0 group = .ok ([u, v], 2)) (hv : v % 16 = 0) :
    decodeLast offset group = .ok [UInt8.ofNat (u * 4 + v / 16)] := by
  simp [decodeLast, h, hv, bind, Except.bind, pure, Except.pure]

/-- Three symbols and a padding sign give two bytes. -/
theorem decodeLast_of_three {offset : Nat} {group : List UInt8} {u v w : Nat}
    (h : readLast offset 0 group = .ok ([u, v, w], 1)) (hw : w % 4 = 0) :
    decodeLast offset group =
      .ok [UInt8.ofNat (((u * 64 + v) * 64 + w) / 1024),
        UInt8.ofNat (((u * 64 + v) * 64 + w) / 4)] := by
  simp [decodeLast, h, hw, bind, Except.bind, pure, Except.pure]

/-- Four symbols give three bytes. -/
theorem decodeLast_of_four {offset : Nat} {group : List UInt8}
    {u v w x : Nat} (h : readLast offset 0 group = .ok ([u, v, w, x], 0)) :
    decodeLast offset group =
      .ok [UInt8.ofNat ((((u * 64 + v) * 64 + w) * 64 + x) / 65536),
        UInt8.ofNat ((((u * 64 + v) * 64 + w) * 64 + x) / 256),
        UInt8.ofNat (((u * 64 + v) * 64 + w) * 64 + x)] := by
  simp [decodeLast, h, bind, Except.bind, pure, Except.pure]

theorem ofNat_eq_of_mod {n : Nat} {b : UInt8} (h : n % 256 = b.toNat) :
    UInt8.ofNat n = b := by
  rw [← UInt8.toNat_inj, UInt8.toNat_ofNat']
  exact h

theorem decodeLast_one (offset : Nat) (a : UInt8) :
    decodeLast offset ((encode [a]).map code) = .ok [a] := by
  have ha := a.toNat_lt
  have hpad : readLast offset 2 [pad, pad] = .ok ([], 2) :=
    readLast_pad offset (by decide) (by decide)
  have hread : readLast offset 0 ((encode [a]).map code) =
      .ok ([a.toNat / 4, a.toNat % 4 * 16], 2) := by
    show readLast offset 0 [code (symbol (a.toNat / 4)),
      code (symbol (a.toNat % 4 * 16)), pad, pad] = _
    rw [readLast_symbol (by omega), readLast_symbol (by omega), hpad]
    rfl
  rw [decodeLast_of_two hread (by omega), ofNat_eq_of_mod (b := a) (by omega)]

theorem decodeLast_two (offset : Nat) (a b : UInt8) :
    decodeLast offset ((encode [a, b]).map code) = .ok [a, b] := by
  have ha := a.toNat_lt
  have hb := b.toNat_lt
  have hpad : readLast offset 3 [pad] = .ok ([], 1) :=
    readLast_pad offset (by decide) (by decide)
  have hread : readLast offset 0 ((encode [a, b]).map code) =
      .ok ([(a.toNat * 256 + b.toNat) / 1024,
        (a.toNat * 256 + b.toNat) / 16 % 64,
        (a.toNat * 256 + b.toNat) % 16 * 4], 1) := by
    show readLast offset 0 [code (symbol ((a.toNat * 256 + b.toNat) / 1024)),
      code (symbol ((a.toNat * 256 + b.toNat) / 16 % 64)),
      code (symbol ((a.toNat * 256 + b.toNat) % 16 * 4)), pad] = _
    rw [readLast_symbol (by omega), readLast_symbol (by omega),
      readLast_symbol (by omega), hpad]
    rfl
  rw [decodeLast_of_three hread (by omega),
    ofNat_eq_of_mod (b := a) (by omega), ofNat_eq_of_mod (b := b) (by omega)]

/-- The bits of three bytes are those of four symbols. -/
theorem bits_eq (n : Nat) (h : n < 16777216) :
    ((n / 262144 * 64 + n / 4096 % 64) * 64 + n / 64 % 64) * 64 + n % 64 =
      n := by
  omega

theorem decodeLast_three (offset : Nat) (a b c : UInt8) :
    decodeLast offset ((encode [a, b, c]).map code) = .ok [a, b, c] := by
  have ha := a.toNat_lt
  have hb := b.toNat_lt
  have hc := c.toNat_lt
  obtain ⟨n, hn⟩ : ∃ n, n = (a.toNat * 256 + b.toNat) * 256 + c.toNat :=
    ⟨_, rfl⟩
  have hread : readLast offset 0 ((encode [a, b, c]).map code) =
      .ok ([n / 262144, n / 4096 % 64, n / 64 % 64, n % 64], 0) := by
    show readLast offset 0
      [code (symbol (((a.toNat * 256 + b.toNat) * 256 + c.toNat) / 262144)),
      code (symbol (((a.toNat * 256 + b.toNat) * 256 + c.toNat) / 4096 % 64)),
      code (symbol (((a.toNat * 256 + b.toNat) * 256 + c.toNat) / 64 % 64)),
      code (symbol (((a.toNat * 256 + b.toNat) * 256 + c.toNat) % 64))] = _
    rw [← hn, readLast_symbol (by omega), readLast_symbol (by omega),
      readLast_symbol (by omega), readLast_symbol (by omega)]
    rfl
  rw [decodeLast_of_four hread, bits_eq n (by omega),
    ofNat_eq_of_mod (b := a) (by omega), ofNat_eq_of_mod (b := b) (by omega),
    ofNat_eq_of_mod (b := c) (by omega)]

/-! ## All groups -/

theorem encode_ne_nil {data : List UInt8} (h : data ≠ []) :
    encode data ≠ [] := by
  match data, h with
  | [a], _ => simp [encode]
  | [a, b], _ => simp [encode]
  | a :: b :: c :: rest, _ => simp [encode]

/-- A full group in front of others gives its three bytes. -/
theorem decodeGroups_cons (offset : Nat) (a b c : UInt8) {rest : List UInt8}
    (h : rest ≠ []) :
    decodeGroups offset ((encode (a :: b :: c :: rest)).map code) =
      (decodeGroups (offset + 4) ((encode rest).map code)).map
        (a :: b :: c :: ·) := by
  have ha := a.toNat_lt
  have hb := b.toNat_lt
  have hc := c.toNat_lt
  obtain ⟨n, hn⟩ : ∃ n, n = (a.toNat * 256 + b.toNat) * 256 + c.toNat :=
    ⟨_, rfl⟩
  obtain ⟨s, ss, hs⟩ := List.exists_cons_of_ne_nil (encode_ne_nil h)
  have hgroup : (encode (a :: b :: c :: rest)).map code =
      code (symbol (n / 262144)) :: code (symbol (n / 4096 % 64)) ::
        code (symbol (n / 64 % 64)) :: code (symbol (n % 64)) ::
        code s :: ss.map code := by
    rw [encode, ← hn, hs]
    rfl
  rw [hgroup, decodeGroups, readSymbol_code (by omega), readSymbol_code (by omega),
    readSymbol_code (by omega), readSymbol_code (by omega), hs]
  simp only [bind, Except.bind, bits_eq n (by omega)]
  rw [ofNat_eq_of_mod (b := a) (by omega), ofNat_eq_of_mod (b := b) (by omega),
    ofNat_eq_of_mod (b := c) (by omega)]
  rw [List.map_cons]
  cases decodeGroups (offset + 4) (code s :: ss.map code) with
  | error fault => rfl
  | ok bytes => rfl

/-- Four symbols or fewer are the last group. -/
theorem decodeGroups_last (offset : Nat) {group : List UInt8}
    (h : group.length ≤ 4) : decodeGroups offset group = decodeLast offset group := by
  unfold decodeGroups
  split
  · simp only [List.length_cons] at h
    omega
  · rfl

theorem decodeGroups_encode (offset : Nat) (data : List UInt8) :
    decodeGroups offset ((encode data).map code) = .ok data := by
  match data with
  | [] => rfl
  | [a] =>
    rw [decodeGroups_last offset (by simp [encode])]
    exact decodeLast_one offset a
  | [a, b] =>
    rw [decodeGroups_last offset (by simp [encode])]
    exact decodeLast_two offset a b
  | [a, b, c] =>
    rw [decodeGroups_last offset (by simp [encode])]
    exact decodeLast_three offset a b c
  | a :: b :: c :: d :: rest =>
    rw [decodeGroups_cons offset a b c (by simp),
      decodeGroups_encode (offset + 4) (d :: rest)]
    rfl

theorem length_encode_mod (data : List UInt8) : (encode data).length % 4 = 0 := by
  match data with
  | [] => rfl
  | [a] => simp [encode]
  | [a, b] => simp [encode]
  | a :: b :: c :: rest =>
    have := length_encode_mod rest
    simp only [encode, List.length_cons]
    omega

/-- The written form of bytes reads back. -/
theorem decode_encode (data : List UInt8) :
    decode ((encode data).map code) = .ok data := by
  unfold decode
  have hlength := length_encode_mod data
  split
  · rw [if_neg (by rw [List.length_map]; omega)]
    exact decodeGroups_encode 0 data
  · rename_i hnone
    have hnil : encode data = [] := by simpa using hnone
    by_cases hdata : data = []
    · rw [hdata]
    · exact absurd hnil (encode_ne_nil hdata)

/-! ## The text of the symbols -/

theorem mem_encode {data : List UInt8} {c : Char} (h : c ∈ encode data) :
    c = '=' ∨ ∃ v < 64, c = symbol v := by
  match data, h with
  | [a], h =>
    have ha := a.toNat_lt
    simp only [encode, List.mem_cons, List.not_mem_nil, or_false] at h
    rcases h with rfl | rfl | rfl | rfl
    · exact Or.inr ⟨_, by omega, rfl⟩
    · exact Or.inr ⟨_, by omega, rfl⟩
    · exact Or.inl rfl
    · exact Or.inl rfl
  | [a, b], h =>
    have ha := a.toNat_lt
    have hb := b.toNat_lt
    simp only [encode, List.mem_cons, List.not_mem_nil, or_false] at h
    rcases h with rfl | rfl | rfl | rfl
    · exact Or.inr ⟨_, by omega, rfl⟩
    · exact Or.inr ⟨_, by omega, rfl⟩
    · exact Or.inr ⟨_, by omega, rfl⟩
    · exact Or.inl rfl
  | a :: b :: c :: rest, h =>
    have ha := a.toNat_lt
    have hb := b.toNat_lt
    have hc := c.toNat_lt
    simp only [encode, List.mem_cons] at h
    rcases h with rfl | rfl | rfl | rfl | h
    · exact Or.inr ⟨_, by omega, rfl⟩
    · exact Or.inr ⟨_, by omega, rfl⟩
    · exact Or.inr ⟨_, by omega, rfl⟩
    · exact Or.inr ⟨_, by omega, rfl⟩
    · exact mem_encode h

theorem toList_loop (bytes : ByteArray) (i : Nat) (seen : List UInt8) :
    ByteArray.toList.loop bytes i seen =
      seen.reverse ++ bytes.data.toList.drop i := by
  fun_induction ByteArray.toList.loop bytes i seen with
  | case1 i seen hi ih =>
    have hsize : i < bytes.data.toList.length := hi
    have hget : bytes.get! i = bytes.data.toList[i] := by
      rw [ByteArray.get!, getElem!_pos bytes.data i hi]
      rfl
    rw [ih, List.reverse_cons, List.append_assoc, List.drop_eq_getElem_cons hsize,
      hget]
    rfl
  | case2 i seen hi =>
    have hsize : bytes.data.toList.length ≤ i := Nat.le_of_not_lt hi
    rw [List.drop_eq_nil_of_le hsize, List.append_nil]

/-- The bytes of characters that take one byte each. -/
theorem toUTF8_ofList {cs : List Char} (h : ∀ c ∈ cs, c.toNat < 128) :
    (String.ofList cs).toUTF8.toList = cs.map code := by
  have hbytes : cs.flatMap String.utf8EncodeChar = cs.map code := by
    induction cs with
    | nil => rfl
    | cons c cs ih =>
      have hc : c.val.toNat ≤ 0x7f := Nat.le_of_lt_succ (h c List.mem_cons_self)
      rw [List.flatMap_cons, ih fun d hd => h d (List.mem_cons_of_mem _ hd),
        String.utf8EncodeChar, if_pos hc]
      rfl
  rw [String.toUTF8_eq_toByteArray, String.toByteArray_ofList, List.utf8Encode,
    hbytes, ByteArray.toList, toList_loop, List.toList_data_toByteArray]
  rfl

theorem symbol_plain {v : Nat} (h : v < 64) :
    (symbol v).toNat < 128 ∧ Text.isBlank (symbol v) = false := by
  have hall : ∀ v : Fin 64, (symbol v).toNat < 128 ∧
      Text.isBlank (symbol v) = false := by decide
  exact hall ⟨v, h⟩

/-- The symbols of bytes read back from their text. -/
theorem decode_text (data : List UInt8) :
    decode (String.ofList
      (Text.trim (String.ofList (encode data)).toList)).toUTF8.toList =
        .ok data := by
  have hplain : ∀ c ∈ encode data,
      c.toNat < 128 ∧ Text.isBlank c = false := by
    intro c hc
    rcases mem_encode hc with rfl | ⟨v, hv, rfl⟩
    · decide
    · exact symbol_plain hv
  rw [String.toList_ofList, Text.trim_of_noBlank fun c hc => (hplain c hc).2,
    toUTF8_ofList fun c hc => (hplain c hc).1, decode_encode]

end SettingsArchive.Base64
