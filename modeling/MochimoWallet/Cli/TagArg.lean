import MochimoWallet.Cli.Args

/-!
# What a tag can be typed as

A tag has one destination, which is read back as that tag, and no other text is. On the command
line there is one form more, `0x` and forty digits, which no destination can be mistaken for; forty
digits alone are refused.
-/

namespace MochimoWallet.Cli

open Codec

/-- Forty digits, and no more. -/
def BareHex (t : Text) : Prop := t.length = addrTagLen * 2 ∧ ∀ c ∈ t, Hex.isDigit c = true

/-- `0x` and the forty digits that spell a tag. -/
def HexTag (t : Text) (tag : Tag) : Prop :=
  ∃ body, t = hexPrefix ++ body ∧ BareHex body ∧ tag.1 = Hex.spelled body

/-! ## Digits -/

/-- What a whole number of bytes has been read from is their digits. -/
theorem hexPush_spelled {s : Text} {what : String} {body : Text} {out : Bytes} {read : HexRead}
    (h : body.foldlM (hexPush s what) ⟨out, none⟩ = .ok read) (hhi : read.hi = none) :
    (∀ c ∈ body, Hex.isDigit c = true) ∧ read.out = out ++ Hex.spelled body ∧
      body.length = 2 * (Hex.spelled body).length := by
  fun_induction Hex.spelled body generalizing out with
  | case1 a b t ih =>
    rw [List.foldlM_cons, bind_eq_ok] at h
    obtain ⟨r₁, ha, h⟩ := h
    rw [List.foldlM_cons, bind_eq_ok] at h
    obtain ⟨r₂, hb, h⟩ := h
    unfold hexPush at ha hb
    rcases hda : Hex.digit a with _ | x
    · rw [hda] at ha
      cases ha
    rw [hda] at ha
    cases ha
    rcases hdb : Hex.digit b with _ | y
    · rw [hdb] at hb
      cases hb
    simp only [hdb] at hb
    split_ifs at hb
    cases hb
    obtain ⟨hdigits, hout, hlen⟩ := ih h
    refine ⟨?_, ?_, ?_⟩
    · exact List.forall_mem_cons.mpr ⟨Hex.isDigit_iff.mpr ⟨x, hda⟩,
        List.forall_mem_cons.mpr ⟨Hex.isDigit_iff.mpr ⟨y, hdb⟩, hdigits⟩⟩
    · rw [hout, List.append_assoc]
      rfl
    · simp only [List.length_cons, hlen]
      omega
  | case2 t hshort =>
    rcases t with _ | ⟨a, _ | ⟨b, t⟩⟩
    · cases h
      refine ⟨fun _ hc => ?_, (List.append_nil _).symm, rfl⟩
      cases hc
    · rw [List.foldlM_cons, bind_eq_ok] at h
      obtain ⟨r₁, ha, h⟩ := h
      cases h
      unfold hexPush at ha
      rcases hda : Hex.digit a with _ | x
      · rw [hda] at ha
        cases ha
      · rw [hda] at ha
        cases ha
        cases hhi
    · exact absurd rfl (hshort a b t)

/-- What the hex arm takes is the prefix and the digits of the tag. -/
theorem tagFromHex_eq_ok {body : Text} {what : String} {tag : Tag}
    (h : tagFromHex (hexPrefix ++ body) what = .ok tag) : HexTag (hexPrefix ++ body) tag := by
  have hbody : ((hexPrefix ++ body).stripPrefix hexPrefix).getD (hexPrefix ++ body) = body := by
    rw [Text.stripPrefix_append, Option.getD_some]
  unfold tagFromHex at h
  dsimp only at h
  rw [hbody] at h
  obtain ⟨read, hread, h⟩ := bind_eq_ok.mp h
  split_ifs at h with hdone
  cases h
  obtain ⟨hdigits, hout, hlen⟩ := hexPush_spelled hread hdone.1
  rw [List.nil_append] at hout
  refine ⟨body, rfl, ⟨?_, hdigits⟩, hout⟩
  rw [hlen, ← hout, hdone.2, Nat.mul_comm]

/-! ## Which tags pass -/

theorem refuseTheZeroTag_eq_ok {tag tag' : Tag} {given : Text} {what : String}
    (h : refuseTheZeroTag tag given what = .ok tag') : tag' = tag ∧ tag ≠ .zero addrTagLen := by
  unfold refuseTheZeroTag at h
  split_ifs at h with hne
  cases h
  refine ⟨rfl, ?_⟩
  rintro rfl
  exact absurd hne (by decide)

/-- Digits alone do not begin with the prefix. -/
theorem not_startsWith_of_digits {t : Text} (h : ∀ c ∈ t, Hex.isDigit c = true) :
    ¬ t.startsWith hexPrefix = true := by
  intro hprefix
  obtain ⟨r, rfl⟩ := Text.startsWith_iff.mp hprefix
  exact absurd (h 'x' (by simp [hexPrefix])) (by decide)

theorem tagFromText_eq_ok {s : Text} {what : String} {tag : Tag} (h : tagFromText s what = .ok tag) :
    tag ≠ .zero addrTagLen ∧ (tagToBase58 tag = .ok s.trim ∨ HexTag s.trim tag) := by
  unfold tagFromText at h
  by_cases hprefix : s.trim.startsWith hexPrefix = true
  · obtain ⟨body, hbody⟩ := Text.startsWith_iff.mp hprefix
    rw [if_pos hprefix, hbody] at h
    obtain ⟨tag', hhex, hzero⟩ := bind_eq_ok.mp h
    obtain ⟨rfl, hne⟩ := refuseTheZeroTag_eq_ok hzero
    rw [hbody]
    exact ⟨hne, .inr (tagFromHex_eq_ok hhex)⟩
  rw [if_neg hprefix] at h
  split_ifs at h
  rcases htag : tagFromBase58 s.trim with e | tag'
  · rw [htag] at h
    cases h
  · rw [htag] at h
    obtain ⟨rfl, hne⟩ := refuseTheZeroTag_eq_ok h
    exact ⟨hne, .inl (tagFromBase58_eq_ok.mp htag)⟩

theorem BareHex.refused {s : Text} (h : BareHex s.trim) (what : String) :
    ∃ e, tagFromText s what = .error e := by
  have hdigits : s.trim.length = addrTagLen * 2 ∧ s.trim.all Hex.isDigit = true :=
    ⟨h.1, List.all_eq_true.mpr h.2⟩
  unfold tagFromText
  rw [if_neg (not_startsWith_of_digits h.2), if_pos hdigits]
  exact ⟨_, rfl⟩

theorem BareHex.trim {s : Text} (h : BareHex s) : s.trim = s :=
  Text.trim_eq_self fun c hc => Hex.isDigit_not_whitespace (h.2 c hc)

/-- Either half of a printed ledger address is forty digits. -/
theorem bareHex_halves (address : Address) :
    BareHex ((Hex.ofBytes address.1).take (addrTagLen * 2)) ∧
      BareHex ((Hex.ofBytes address.1).drop (addrTagLen * 2)) := by
  have hlen : (Hex.ofBytes address.1).length = 80 := by
    rw [Hex.length_ofBytes, address.2]
    rfl
  refine ⟨⟨?_, fun c hc => ?_⟩, ⟨?_, fun c hc => ?_⟩⟩
  · rw [List.length_take, hlen]
    rfl
  · exact Hex.isDigit_of_mem_ofBytes c (List.mem_of_mem_take hc)
  · rw [List.length_drop, hlen]
    rfl
  · exact Hex.isDigit_of_mem_ofBytes c (List.mem_of_mem_drop hc)

/-- No destination is `0x` and digits: it is too short. -/
theorem not_hexTag_of_base58 {text : Text} {tag tag' : Tag} (h : tagToBase58 tag = .ok text) :
    ¬ HexTag text tag' := by
  rintro ⟨body, rfl, hbody, -⟩
  have hlen := (length_base58Encode (tagPayload tag).2 h).2
  rw [List.length_append, hbody.1] at hlen
  exact absurd hlen (by decide)

/-- Destination text names one tag at most, and forty digits name none. -/
theorem destination_text_names_one_tag :
    (∀ tag, ∃ text, tagToBase58 tag = .ok text ∧ 22 ≤ text.length ∧ text.length ≤ 31 ∧
      tagFromBase58 text = .ok tag) ∧
    (∀ s tag, tagFromBase58 s = .ok tag → tagToBase58 tag = .ok s) ∧
    (∀ s what tag, tagFromText s what = .ok tag →
      tag ≠ .zero addrTagLen ∧ (tagToBase58 tag = .ok s.trim ∨ HexTag s.trim tag)) ∧
    (∀ text tag tag', tagToBase58 tag = .ok text → ¬ HexTag text tag') ∧
    (∀ s what, BareHex s ∨ BareHex s.trim → ∃ e, tagFromText s what = .error e) ∧
    ∀ (address : Address) what,
      (∃ e, tagFromText ((Hex.ofBytes address.1).take (addrTagLen * 2)) what = .error e) ∧
      ∃ e, tagFromText ((Hex.ofBytes address.1).drop (addrTagLen * 2)) what = .error e := by
  refine ⟨fun tag => ?_, fun s tag h => tagFromBase58_eq_ok.mp h, fun s what tag h => tagFromText_eq_ok h,
    fun text tag tag' h => not_hexTag_of_base58 h, fun s what h => ?_, fun address what => ?_⟩
  · obtain ⟨text, htext⟩ := tagToBase58_ok tag
    obtain ⟨hmin, hmax⟩ := length_base58Encode (tagPayload tag).2 htext
    exact ⟨text, htext, hmin, hmax, tagFromBase58_eq_ok.mpr htext⟩
  · rcases h with h | h
    · exact BareHex.refused (h.trim.symm ▸ h) what
    · exact h.refused what
  · obtain ⟨hleft, hright⟩ := bareHex_halves address
    exact ⟨BareHex.refused (hleft.trim.symm ▸ hleft) what, BareHex.refused (hright.trim.symm ▸ hright) what⟩

end MochimoWallet.Cli
