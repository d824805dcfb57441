import MochimoWallet.Keystore.Slots

/-!
# Which bytes are a frame

The rules that sort a slot file take its magic, its length, the length it declares, its check and
its version in turn. Together they are one rule: a file that is neither foreign nor torn is, byte
for byte, a frame, of some version, around as many bytes as it declares (`sort_cases`). So what is
taken for an image is the frame of that image, and no frame begins another.
-/

namespace MochimoWallet.Keystore

open Codec

/-- A file that begins with the magic and holds every field is those fields. -/
theorem exists_slotBody {bytes : Bytes} (hmagic : bytes.take 8 = slotMagic.1)
    (hlen : headLen + checkLen ≤ bytes.length) :
    ∃ v declared payload, ∃ check : Block checkLen, bytes = slotBody v declared payload ++ check.1 := by
  have hhead : headLen = 14 := rfl
  have hcheck : checkLen = 32 := rfl
  rw [hhead, hcheck] at hlen
  obtain ⟨m, rest, rfl⟩ := exists_block_append (n := 8) (b := bytes) (by omega)
  rw [List.take_left' m.2] at hmagic
  obtain rfl : m = slotMagic := Block.ext hmagic
  rw [List.length_append, slotMagic.2] at hlen
  obtain ⟨w, rest, rfl⟩ := exists_block_append (n := 2) (b := rest) (by omega)
  rw [List.length_append, w.2] at hlen
  obtain ⟨d, rest, rfl⟩ := exists_block_append (n := 4) (b := rest) (by omega)
  rw [List.length_append, d.2] at hlen
  refine ⟨ofU16le w, ofU32le d, rest.take (rest.length - checkLen),
    ⟨rest.drop (rest.length - checkLen), by rw [List.length_drop, hcheck]; omega⟩, ?_⟩
  rw [slotBody, u16le_ofU16le, u32le_ofU32le, List.append_assoc, List.append_assoc, List.append_assoc,
    List.take_append_drop]

section
variable [Crypto]

/-- The ways a slot file is sorted: foreign, torn, or as the frame that it is. -/
theorem sort_cases (bytes : Bytes) :
    sort (some bytes) = .ok (.other bytes) ∨ sort (some bytes) = .ok .torn ∨
      ∃ v image, image.length ≤ maxImageLen ∧ bytes = frameAt v image := by
  by_cases hmagic : bytes.take 8 = slotMagic.1
  · by_cases hlen : headLen + checkLen ≤ bytes.length
    · obtain ⟨v, declared, payload, check, rfl⟩ := exists_slotBody hmagic hlen
      rw [sort_slotBody]
      split_ifs with hlong hdeclared hsum
      · exact .inr (.inl rfl)
      · exact .inr (.inl rfl)
      · exact .inr (.inl rfl)
      all_goals
        -- Every field holds, so the file is the frame of its payload.
        have hlength : UInt32.ofNat payload.length = declared := by
          rw [← not_not.mp hdeclared, UInt32.ofNat_toNat]
        refine .inr (.inr ⟨v, payload, not_lt.mp hlong, ?_⟩)
        rw [frameAt, hlength, not_not.mp hsum]
    · have hshort : bytes.length < headLen + checkLen := not_le.mp hlen
      refine .inr (.inl ?_)
      simp only [sort, hmagic, ne_eq, not_true_eq_false, if_false, if_pos hshort, ite_self]
  · exact .inl (if_pos hmagic)

/-- A file that is neither foreign nor torn is a frame, and is sorted as that frame is. -/
theorem frameAt_of_sort {bytes : Bytes} {r : Except Error Content} (h : sort (some bytes) = r)
    (hother : r ≠ .ok (.other bytes)) (htorn : r ≠ .ok .torn) :
    ∃ v image, image.length ≤ maxImageLen ∧ bytes = frameAt v image ∧
      sort (some (frameAt v image)) = r := by
  subst h
  rcases sort_cases bytes with hsort | hsort | ⟨v, image, hmax, rfl⟩
  · exact absurd hsort hother
  · exact absurd hsort htorn
  · exact ⟨v, image, hmax, rfl, rfl⟩

/-- What is taken for an image is that image's frame. -/
theorem frame_of_sort_image {bytes image : Bytes} (h : sort (some bytes) = .ok (.image image)) :
    frame image = .ok bytes := by
  obtain ⟨v, payload, hmax, rfl, hsort⟩ := frameAt_of_sort h nofun nofun
  rw [sort_frameAt v hmax] at hsort
  split_ifs at hsort with hv hnil
  · cases hsort
  · cases hsort
    exact frame_eq_ok.mpr ⟨hmax, by rw [not_not.mp hv]⟩

theorem frame_of_sort_vacant {bytes : Bytes} (h : sort (some bytes) = .ok .vacant) :
    frame [] = .ok bytes := by
  obtain ⟨v, payload, hmax, rfl, hsort⟩ := frameAt_of_sort h nofun nofun
  rw [sort_frameAt v hmax] at hsort
  split_ifs at hsort with hv hnil
  · subst hnil
    exact frame_eq_ok.mpr ⟨hmax, by rw [not_not.mp hv]⟩
  · cases hsort

/-- What is refused is a frame of another version. -/
theorem frameAt_of_sort_error {bytes : Bytes} {e : Error} (h : sort (some bytes) = .error e) :
    ∃ v image, v ≠ frameVersion ∧ image.length ≤ maxImageLen ∧ bytes = frameAt v image := by
  obtain ⟨v, image, hmax, rfl, hsort⟩ := frameAt_of_sort h nofun nofun
  rw [sort_frameAt v hmax] at hsort
  split_ifs at hsort with hv
  exact ⟨v, image, hv, hmax, rfl⟩

/-- No frame begins another: its head says how long it is. -/
theorem frameAt_unique {v v' : UInt16} {image image' : Bytes} (hmax : image.length ≤ maxImageLen)
    (hmax' : image'.length ≤ maxImageLen) (h : frameAt v image <+: frameAt v' image') :
    frameAt v image = frameAt v' image' := by
  obtain ⟨more, hmore⟩ := h
  have hsplit : (slotMagic.1 ++ (u16le v).1) ++ ((u32le (.ofNat image.length)).1 ++ (image ++
        ((Crypto.sha3_256 (slotBody v (.ofNat image.length) image)).1 ++ more))) =
      (slotMagic.1 ++ (u16le v').1) ++ ((u32le (.ofNat image'.length)).1 ++ (image' ++
        (Crypto.sha3_256 (slotBody v' (.ofNat image'.length) image')).1)) := by
    simpa only [frameAt, slotBody, List.append_assoc] using hmore
  obtain ⟨-, hrest⟩ := List.append_inj hsplit (by simp [Block.length_eq])
  obtain ⟨hdeclared, -⟩ := List.append_inj hrest (by simp [Block.length_eq])
  have hsmall : maxImageLen < 2 ^ 32 := by decide
  have hlength : image.length = image'.length := by
    have heq := congrArg UInt32.toNat (u32le_injective (Block.ext hdeclared))
    rw [UInt32.toNat_ofNat', UInt32.toNat_ofNat', Nat.mod_eq_of_lt (lt_of_le_of_lt hmax hsmall),
      Nat.mod_eq_of_lt (lt_of_le_of_lt hmax' hsmall)] at heq
    exact heq
  exact List.IsPrefix.eq_of_length ⟨more, hmore⟩ (by rw [length_frameAt, length_frameAt, hlength])

/-- What a frame begins and what begins with a frame are torn or foreign, unless they are the
frame. -/
theorem sort_beside_frame {image bytes cut : Bytes} (h : frame image = .ok bytes)
    (hcut : cut <+: bytes ∨ bytes <+: cut) (hne : cut ≠ bytes) :
    sort (some cut) = .ok (.other cut) ∨ sort (some cut) = .ok .torn := by
  obtain ⟨hmax, rfl⟩ := frame_eq_ok.mp h
  rcases sort_cases cut with hother | htorn | ⟨v, payload, hmax', rfl⟩
  · exact .inl hother
  · exact .inr htorn
  · rcases hcut with hcut | hcut
    · exact absurd (frameAt_unique hmax' hmax hcut) hne
    · exact absurd (frameAt_unique hmax hmax' hcut).symm hne

/-- A file is taken for an image, or for nothing, exactly where it is the frame around it, and is
refused only where every field but its version holds; so no part of a frame, and nothing that goes
on from one, is taken. -/
theorem slot_frame_recognised :
    (∀ image, 1 ≤ image.length → image.length ≤ maxImageLen →
      ∃ bytes, frame image = .ok bytes ∧ sort (some bytes) = .ok (.image image)) ∧
    (∃ bytes, frame [] = .ok bytes ∧ sort (some bytes) = .ok .vacant) ∧
    (∀ bytes image, sort (some bytes) = .ok (.image image) → frame image = .ok bytes) ∧
    (∀ bytes, sort (some bytes) = .ok .vacant → frame [] = .ok bytes) ∧
    (∀ bytes e, sort (some bytes) = .error e →
      ∃ v image, v ≠ frameVersion ∧ image.length ≤ maxImageLen ∧ bytes = frameAt v image) ∧
    ∀ image bytes cut, frame image = .ok bytes → cut <+: bytes ∨ bytes <+: cut → cut ≠ bytes →
      sort (some cut) = .ok (.other cut) ∨ sort (some cut) = .ok .torn := by
  refine ⟨fun image hpos hmax => ?_, ?_, fun _ _ => frame_of_sort_image, fun _ => frame_of_sort_vacant,
    fun _ _ => frameAt_of_sort_error, fun _ _ _ => sort_beside_frame⟩
  · have hframe := frame_eq_ok.mpr ⟨hmax, rfl⟩
    refine ⟨_, hframe, ?_⟩
    rw [sort_frame hframe, if_neg (List.ne_nil_of_length_pos hpos)]
  · have hframe := frame_eq_ok.mpr ⟨(by decide : ([] : Bytes).length ≤ maxImageLen), rfl⟩
    exact ⟨_, hframe, sort_frame hframe⟩

end

end MochimoWallet.Keystore
