import NodeLink.Parsing.SelfDelimiting
import NodeLink.Tracker.Agreement

/-!
# A response that is cut off

`GetPeersHTTP` calls `Receive` once, and TCP may return any first part of what
the tracker sends.  A response ends, for the parser, with the last byte of the
value behind the header (`EndsAt`).  A part that reaches that far gives the list
of the whole response, and a shorter one gives no peers (`getPeersHTTP_of_part`).
-/

namespace Cpp

section

variable {α : Type*} {pat s : List α} {m j : Nat}

/-- Where a part of a string holds another one, the string does. -/
theorem prefix_drop_take_iff (hpat : pat ≠ []) :
    pat <+: (s.take m).drop j ↔ pat <+: s.drop j ∧ j + pat.length ≤ m := by
  have hpos := List.length_pos_iff.mpr hpat
  rw [List.drop_take, List.prefix_take_iff]
  refine and_congr_right fun _ => ?_
  omega

end

variable {α : Type*} [DecidableEq α] {pat s : List α} {i k m : Nat}

/-- What stands somewhere is found, there or before. -/
theorem exists_find (hk : k ≤ s.length) (hat : pat <+: s.drop k) : ∃ i ≤ k, find pat s = some i := by
  induction k using Nat.strongRecOn with
  | ind k ih =>
      by_cases hfirst : ∃ j < k, pat <+: s.drop j
      · obtain ⟨j, hj, hjat⟩ := hfirst
        obtain ⟨i, hi, hf⟩ := ih j hj (by omega) hjat
        exact ⟨i, by omega, hf⟩
      · refine ⟨k, Nat.le_refl k, find_eq_some_iff.mpr ⟨hk, hat, fun j hj hp => ?_⟩⟩
        exact hfirst ⟨j, hj, hp⟩

/-- What is found in a first part of a string is found in the string, at the same place. -/
theorem find_of_find_take (hpat : pat ≠ []) (h : find pat (s.take m) = some i) :
    find pat s = some i ∧ i + pat.length ≤ m := by
  obtain ⟨hle, hat, hfirst⟩ := find_eq_some_iff.mp h
  obtain ⟨hat, hm⟩ := (prefix_drop_take_iff hpat).mp hat
  rw [List.length_take] at hle
  obtain ⟨k, hk, hf⟩ := exists_find (show i ≤ s.length by omega) hat
  obtain ⟨-, hkat, -⟩ := find_eq_some_iff.mp hf
  by_cases hki : k < i
  · exact absurd ((prefix_drop_take_iff hpat).mpr ⟨hkat, by omega⟩) (hfirst k hki)
  · exact ⟨by rw [hf, show k = i by omega], hm⟩

/-- The first occurrence in a first part of a string. -/
theorem find_take (hpat : pat ≠ []) (h : find pat s = some i) (m : Nat) :
    find pat (s.take m) = if i + pat.length ≤ m then some i else none := by
  obtain ⟨hle, hat, hfirst⟩ := find_eq_some_iff.mp h
  split
  next hm =>
    refine find_eq_some_iff.mpr ⟨?_, (prefix_drop_take_iff hpat).mpr ⟨hat, hm⟩, fun j hj hp => ?_⟩
    · rw [List.length_take]
      omega
    · exact hfirst j hj ((prefix_drop_take_iff hpat).mp hp).1
  next hm =>
    cases hf : find pat (s.take m) with
    | none => rfl
    | some k =>
        obtain ⟨hk, hkm⟩ := find_of_find_take hpat hf
        rw [h] at hk
        cases hk
        exact absurd hkm hm

end Cpp

namespace NodeLink

namespace Bnode

variable {data : Buffer} {fuel j k : Nat} {v : Bnode}

/-- `Decode` returns what `DecodeElement` does from the start. -/
theorem decode_of_decodeElement (hdata : data.length < 2 ^ 63)
    (h : decodeElement data fuel 0 = .ok (v, j)) : decode data = .ok v := by
  have hne : decodeElement data (fuelFor data) 0 ≠ .error .fuel :=
    (enough_fuel hdata _).1 0 (by simp only [fuelFor]; omega)
  have hboth := decodeElement_le_of_ok h (Nat.le_max_left fuel (fuelFor data))
  rw [decodeElement_le hne (Nat.le_max_right _ _)] at hboth
  rw [decode, hboth]
  rfl

/-- A first part that holds the value is decoded to it. -/
theorem decode_take_of_le (hdata : data.length < 2 ^ 63)
    (h : decodeElement data fuel 0 = .ok (v, j)) (hk : j ≤ k) : decode (data.take k) = .ok v := by
  have hlen := List.length_take_le' k data
  exact decode_of_decodeElement (by omega)
    (((selfDelimiting hdata fuel).1 0 v j h).agree _ (Agree.take hk data))

/-- What a first part is decoded to, the whole buffer is. -/
theorem decodeElement_of_take (hdata : data.length < 2 ^ 63)
    (h : decodeElement (data.take k) fuel 0 = .ok (v, j)) : decodeElement data fuel 0 = .ok (v, j) := by
  have hlen := List.length_take_le' k data
  have hk := (decodeElement_bounds (by omega) h).2
  rw [List.length_take] at hk
  refine ((selfDelimiting (by omega) fuel).1 0 v j h).agree _ ?_
  rw [Agree, List.take_take, Nat.min_eq_left (by omega)]

end Bnode

namespace Tracker

variable {R response : Buffer} {n : Nat} {net : TcpNet} {url : Url} {t : TorrentFile}
  {peerId : Str} {port : Int32}

theorem headerEnd_ne_nil : headerEnd ≠ [] := List.cons_ne_nil _ _

/-- The value behind the header ends with byte `n` of the response. -/
def EndsAt (R : Buffer) (n : Nat) : Prop :=
  ∃ i fuel v j, Cpp.find headerEnd R = some i ∧
    Bnode.decodeElement (R.drop (i + 4)) fuel 0 = .ok (v, j) ∧ n = i + 4 + j

theorem parseBody_of_decode_raise {body : Buffer} {e : Exn} (h : Bnode.decode body = Bnode.raise e) :
    parseBody body = .error (.exn e) := by
  rw [parseBody, h]
  rfl

theorem parseBody_congr {body body' : Buffer} (h : Bnode.decode body = Bnode.decode body') :
    parseBody body = parseBody body' := by
  rw [parseBody, parseBody, h]

theorem parseResponse_of_find {i : Nat} (h : Cpp.find headerEnd R = some i) :
    parseResponse R = match parseBody (R.drop (i + 4)) with
      | .error (.exn _) => .ok []
      | r => r := by
  unfold parseResponse
  split
  next hnone => cases hnone.symm.trans h
  next j hj =>
    obtain rfl := Option.some.inj (hj.symm.trans h)
    rfl

theorem drop_take_body (R : Buffer) (i m : Nat) :
    (R.take m).drop (i + 4) = (R.drop (i + 4)).take (m - (i + 4)) := List.drop_take ..

/-- A part that reaches the end of the value is read as the whole response is. -/
theorem parseResponse_take_of_le (hR : R.length < 2 ^ 63) (h : EndsAt R n) {m : Nat} (hm : n ≤ m) :
    parseResponse (R.take m) = parseResponse R := by
  obtain ⟨i, fuel, v, j, hf, hd, rfl⟩ := h
  have hlen : (R.drop (i + 4)).length < 2 ^ 63 := by
    rw [List.length_drop]
    omega
  have hf' : Cpp.find headerEnd (R.take m) = some i := by
    rw [Cpp.find_take headerEnd_ne_nil hf, if_pos]
    change i + 4 ≤ m
    omega
  have hdec : Bnode.decode ((R.take m).drop (i + 4)) = Bnode.decode (R.drop (i + 4)) := by
    rw [drop_take_body, Bnode.decode_take_of_le hlen hd (by omega),
      Bnode.decode_of_decodeElement hlen hd]
  rw [parseResponse_of_find hf', parseResponse_of_find hf, parseBody_congr hdec]

/-- A shorter part has no peers. -/
theorem parseResponse_take_of_lt (hR : R.length < 2 ^ 63) (h : EndsAt R n) {m : Nat} (hm : m < n) :
    parseResponse (R.take m) = .ok [] := by
  obtain ⟨i, fuel, v, j, hf, hd, rfl⟩ := h
  have hlen : (R.drop (i + 4)).length < 2 ^ 63 := by
    rw [List.length_drop]
    omega
  by_cases hi : i + 4 ≤ m
  · have hf' : Cpp.find headerEnd (R.take m) = some i := by
      rw [Cpp.find_take headerEnd_ne_nil hf, if_pos]
      exact hi
    obtain ⟨e, he⟩ := Bnode.decode_take hlen hd (show m - (i + 4) < j by omega)
    rw [parseResponse_of_find hf', drop_take_body, parseBody_of_decode_raise he]
  · have hf' : Cpp.find headerEnd (R.take m) = none := by
      rw [Cpp.find_take headerEnd_ne_nil hf, if_neg]
      exact hi
    rw [parseResponse, hf']

/-- A part that is read at all holds the whole value. -/
theorem endsAt_of_decode_take (hR : R.length < 2 ^ 63) {i m : Nat} {v : Bnode}
    (hf : Cpp.find headerEnd (R.take m) = some i)
    (hd : Bnode.decode ((R.take m).drop (i + 4)) = .ok v) : ∃ n, EndsAt R n := by
  have hlen : (R.drop (i + 4)).length < 2 ^ 63 := by
    rw [List.length_drop]
    omega
  rw [drop_take_body] at hd
  simp only [Bnode.decode] at hd
  obtain ⟨⟨w, j⟩, hw, -⟩ := Bnode.bind_eq_ok hd
  exact ⟨_, i, _, w, j, (Cpp.find_of_find_take headerEnd_ne_nil hf).1,
    Bnode.decodeElement_of_take hlen hw, rfl⟩

/-- Where no value ends behind a header, no part has peers. -/
theorem parseResponse_take_of_not_endsAt (hR : R.length < 2 ^ 63) (h : ∀ n, ¬ EndsAt R n) (m : Nat) :
    parseResponse (R.take m) = .ok [] := by
  cases hf : Cpp.find headerEnd (R.take m) with
  | none => rw [parseResponse, hf]
  | some i =>
      have hlen : ((R.take m).drop (i + 4)).length < 2 ^ 63 := by
        rw [List.length_drop, List.length_take]
        omega
      rw [parseResponse_of_find hf]
      cases hd : Bnode.decode ((R.take m).drop (i + 4)) with
      | ok v =>
          obtain ⟨n, hn⟩ := endsAt_of_decode_take hR hf hd
          exact absurd hn (h n)
      | error e =>
          cases e with
          | exn e => rw [parseBody_of_decode_raise hd]
          | fuel => exact absurd hd (Bnode.decode_ne_fuel hlen)

/-- The one call of `Receive` returns the first `m` bytes of what the tracker sends.  If a value ends
with byte `n` behind the header, the list is that of the whole response from `n` bytes on, and empty
before.  If none does, it is empty for every part.  A cut never makes another list. -/
theorem getPeersHTTP_of_part (hR : R.length < 2 ^ 63) (m : Nat)
    (h : Responds net url t peerId port (R.take m)) :
    (∀ n, EndsAt R n → getPeersHTTP net url t peerId port =
      if n ≤ m then parseResponse R else .ok []) ∧
    ((∀ n, ¬ EndsAt R n) → getPeersHTTP net url t peerId port = .ok []) := by
  rw [getPeersHTTP_of_responds h]
  refine ⟨fun n hn => ?_, fun hn => parseResponse_take_of_not_endsAt hR hn m⟩
  split
  · exact parseResponse_take_of_le hR hn ‹_›
  · exact parseResponse_take_of_lt hR hn (by omega)

/-- The value in the response of a tracker with one peer ends in front of the line break. -/
theorem endsAt_httpResponse :
    EndsAt httpResponse (15 + 4 + (Bnode.encode (.dict peersDict)).length) := by
  refine ⟨15, 100, .dict peersDict, 0 + (Bnode.encode (.dict peersDict)).length,
    by decide +kernel, ?_, by rw [Nat.zero_add]⟩
  refine Bnode.decodeElement_encode _ wellFormed_peersDict (by decide +kernel) ?_ (by decide +kernel)
    (List.prefix_append (Bnode.encode (.dict peersDict)) (bytes "\n"))
  rw [Nat.zero_add]
  decide +kernel

/-- Without its last two bytes the response has no peers. -/
theorem getPeersHTTP_of_part_short :
    getPeersHTTP (answering (httpResponse.take 35)) someUrl wanted [] 6881 = .ok [] := by
  have hresponds : Responds (answering (httpResponse.take 35)) someUrl wanted [] 6881
      (httpResponse.take 35) := ⟨rfl, rfl, rfl, rfl, by decide +kernel⟩
  have hpart := (getPeersHTTP_of_part (by decide +kernel) 35 hresponds).1 _ endsAt_httpResponse
  rwa [if_neg (by decide +kernel)] at hpart

end Tracker

end NodeLink
