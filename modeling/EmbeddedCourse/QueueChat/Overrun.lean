import EmbeddedCourse.QueueChat.Discipline

/-! # Lines that are longer than the buffer

`read_queue` lets a client have names and texts whose line is longer than
`mtext[256]`. The replay copies such a line over `from_message`, which it sets
again, and from byte 264 on over `categoriy_message`, which it sets once before
the loop. A newcomer takes what follows for news of the members exactly when a
line of 265 bytes ends in the byte of such a kind, unless a longer line has
come before.
-/

namespace EmbeddedCourse.QueueChat

open CString Chat Mailbox Client

/-- No line puts the kind of a notice into `categoriy_message`. -/
def Plain (hist : List (Bytes × Int)) : Prop :=
  ∀ pre e post, hist = pre ++ e :: post → (∀ x ∈ pre, x.1.length ≤ 265) → e.1.length = 265 →
    e.1.getD 264 0 ≠ 3 ∧ e.1.getD 264 0 ≠ 4

/-! ## The bytes of the category -/

theorem copyText_category {msg : Message} (h : IsInt msg.categoriyMessage) (line : Bytes) :
    (msg.copyText line).categoriyMessage =
      ofLeBytes (overlay (leBytes 4 msg.categoriyMessage) (line.drop 264)) := by
  unfold Message.copyText
  split_ifs with hlen
  · have hnil : line.drop 264 = [] := List.drop_eq_nil_of_le (by omega)
    have hsame : overlay (leBytes 4 msg.categoriyMessage) [] = leBytes 4 msg.categoriyMessage := by
      simp [overlay]
    rw [hnil, hsame, ofLeBytes_leBytes h]
  · have height : (leBytes 8 msg.fromMessage).length = 8 := length_leBytes 8 _
    have hbehind := drop_overlay_append (leBytes 8 msg.fromMessage) (leBytes 4 msg.categoriyMessage)
      (line.drop 256)
    rw [height, List.drop_drop] at hbehind
    dsimp only
    rw [hbehind]

/-- What the category of a line is, from the bytes of the line behind its buffer. -/
theorem putLine_bytes {msg : Message} (h : IsInt msg.categoriyMessage) (e : Bytes × Int) :
    ∃ x₂ x₃ : UInt8, (putLine msg e).categoriyMessage =
        ofLeBytes [e.1.getD 264 (UInt8.ofNat (msg.categoriyMessage % 256).toNat),
          e.1.getD 265 (UInt8.ofNat (msg.categoriyMessage / 256 % 256).toNat), x₂, x₃] ∧
      (0 ≤ msg.categoriyMessage → msg.categoriyMessage < 256 → e.1.length ≤ 266 → x₂ = 0 ∧ x₃ = 0) := by
  refine ⟨e.1.getD 266 (UInt8.ofNat (msg.categoriyMessage / 65536 % 256).toNat),
    e.1.getD 267 (UInt8.ofNat (msg.categoriyMessage / 16777216 % 256).toNat), ?_, ?_⟩
  · show (msg.copyText e.1).categoriyMessage = _
    have hget : ∀ (k : ℕ) (y : UInt8), (e.1.drop 264).getD k y = e.1.getD (264 + k) y := by
      intro k y
      rw [List.getD_eq_getElem?_getD, List.getElem?_drop, List.getD_eq_getElem?_getD]
    rw [copyText_category h, leBytes_four, overlay_four, hget, hget, hget, hget]
  · intro hlo hhi hlen
    have hzero : ∀ d : Int, 256 ≤ d → UInt8.ofNat (msg.categoriyMessage / d % 256).toNat = 0 := by
      intro d hd
      have hdiv : msg.categoriyMessage / d = 0 := Int.ediv_eq_zero_of_lt hlo (by omega)
      rw [hdiv]
      rfl
    rw [List.getD_eq_default _ _ (by omega), List.getD_eq_default _ _ (by omega)]
    exact ⟨hzero 65536 (by decide), hzero 16777216 (by decide)⟩

/-- After a line of up to 265 bytes the category is its last byte, or what it was. -/
theorem putLine_low {msg : Message} {e : Bytes × Int} (hlo : 0 ≤ msg.categoriyMessage)
    (hhi : msg.categoriyMessage < 256) (hlen : e.1.length ≤ 265) :
    (putLine msg e).categoriyMessage =
      if e.1.length = 265 then ((e.1.getD 264 0).toNat : Int) else msg.categoriyMessage := by
  have hint : IsInt msg.categoriyMessage := by
    unfold IsInt
    omega
  rcases putLine_bytes hint e with ⟨x₂, x₃, hcat, hzero⟩
  rcases hzero hlo hhi (by omega) with ⟨rfl, rfl⟩
  have hnext : e.1.getD 265 (UInt8.ofNat (msg.categoriyMessage / 256 % 256).toNat) = 0 := by
    have hdiv : msg.categoriyMessage / 256 = 0 := Int.ediv_eq_zero_of_lt hlo hhi
    rw [List.getD_eq_default _ _ (by omega), hdiv]
    rfl
  rw [hcat, hnext, (ofLeBytes_low _ _ _ _).2.2 rfl rfl rfl]
  split_ifs with hfull
  · rw [List.getD_eq_getElem _ _ (by omega), List.getD_eq_getElem _ _ (by omega)]
  · rw [List.getD_eq_default _ _ (by omega), UInt8.toNat_ofNat']
    omega

/-- A longer line makes the category a number of two bytes or more, and no line
behind it changes that. -/
theorem putLine_high {msg : Message} {e : Bytes × Int} (hint : IsInt msg.categoriyMessage)
    (hnul : NoNul e.1) (hhigh : 266 ≤ e.1.length ∨ msg.categoriyMessage / 256 % 256 ≠ 0) :
    IsInt (putLine msg e).categoriyMessage ∧ (putLine msg e).categoriyMessage / 256 % 256 ≠ 0 := by
  rcases putLine_bytes hint e with ⟨x₂, x₃, hcat, -⟩
  rcases ofLeBytes_low (e.1.getD 264 (UInt8.ofNat (msg.categoriyMessage % 256).toNat))
    (e.1.getD 265 (UInt8.ofNat (msg.categoriyMessage / 256 % 256).toNat)) x₂ x₃ with ⟨hrange, hbyte, -⟩
  rw [hcat]
  refine ⟨hrange, ?_⟩
  rw [hbyte]
  intro hzero
  have hnat : (e.1.getD 265 (UInt8.ofNat (msg.categoriyMessage / 256 % 256).toNat)).toNat = 0 := by omega
  have hbyte0 := UInt8.toNat_inj.mp (hnat.trans UInt8.toNat_zero.symm)
  by_cases hlong : 266 ≤ e.1.length
  · -- a byte of the line
    rw [List.getD_eq_getElem _ _ (by omega)] at hbyte0
    exact hnul (hbyte0 ▸ List.getElem_mem _)
  · have hold := hhigh.resolve_left hlong
    rw [List.getD_eq_default _ _ (by omega), UInt8.toNat_ofNat'] at hnat
    omega

/-! ## The replay -/

theorem not_notice_of_high {m : Message} (h : m.categoriyMessage / 256 % 256 ≠ 0) : ¬ m.IsNotice := by
  rintro (hnew | hleave)
  · rw [hnew] at h
    exact h rfl
  · rw [hleave] at h
    exact h rfl

theorem replay_high {hist : List (Bytes × Int)} (hnul : ∀ e ∈ hist, NoNul e.1) {msg : Message}
    (hint : IsInt msg.categoriyMessage) (hhigh : msg.categoriyMessage / 256 % 256 ≠ 0) :
    ∀ m ∈ (sendLoop putLine msg hist).2, ¬ m.IsNotice := by
  induction hist generalizing msg with
  | nil => simp [sendLoop]
  | cons e hist ih =>
    rcases putLine_high hint (hnul e (by simp)) (Or.inr hhigh) with ⟨hint', hhigh'⟩
    intro m hm
    rw [sendLoop] at hm
    rcases List.mem_cons.mp hm with rfl | hm
    · exact not_notice_of_high hhigh'
    · exact ih (fun x hx => hnul x (List.mem_cons_of_mem e hx)) hint' hhigh' m hm

theorem Plain.tail {e : Bytes × Int} {hist : List (Bytes × Int)} (h : Plain (e :: hist))
    (hlen : e.1.length ≤ 265) : Plain hist := by
  intro pre x post hsplit hpre
  apply h (e :: pre) x post (by rw [hsplit, List.cons_append])
  intro y hy
  rcases List.mem_cons.mp hy with rfl | hy
  · exact hlen
  · exact hpre y hy

/-- A plain history is replayed as lines. -/
theorem replay_plain {hist : List (Bytes × Int)} (hplain : Plain hist) (hnul : ∀ e ∈ hist, NoNul e.1)
    {msg : Message} (hlo : 0 ≤ msg.categoriyMessage) (hhi : msg.categoriyMessage < 256)
    (hmsg : ¬ msg.IsNotice) : ∀ m ∈ (sendLoop putLine msg hist).2, ¬ m.IsNotice := by
  induction hist generalizing msg with
  | nil => simp [sendLoop]
  | cons e hist ih =>
    have htail := fun x hx => hnul x (List.mem_cons_of_mem e hx)
    rw [sendLoop]
    rcases Nat.lt_or_ge 265 e.1.length with hlong | hshort
    · have hint : IsInt msg.categoriyMessage := by
        unfold IsInt
        omega
      rcases putLine_high hint (hnul e (by simp)) (Or.inl hlong) with ⟨hint', hhigh'⟩
      intro m hm
      rcases List.mem_cons.mp hm with rfl | hm
      · exact not_notice_of_high hhigh'
      · exact replay_high htail hint' hhigh' m hm
    · have hcat := putLine_low hlo hhi hshort
      have hnext : 0 ≤ (putLine msg e).categoriyMessage ∧ (putLine msg e).categoriyMessage < 256 ∧
          ¬ (putLine msg e).IsNotice := by
        unfold Message.IsNotice
        rw [hcat]
        split_ifs with hfull
        · -- the last byte of the line
          rcases hplain [] e hist rfl (by simp) hfull with ⟨h3, h4⟩
          have hlt := (e.1.getD 264 0).toNat_lt
          refine ⟨by omega, by omega, ?_⟩
          rintro (hnew | hleave)
          · exact h3 (UInt8.toNat_inj.mp (Int.ofNat_inj.mp hnew))
          · exact h4 (UInt8.toNat_inj.mp (Int.ofNat_inj.mp hleave))
        · exact ⟨hlo, hhi, hmsg⟩
      intro m hm
      rcases List.mem_cons.mp hm with rfl | hm
      · exact hnext.2.2
      · exact ih (hplain.tail hshort) htail hnext.1 hnext.2.1 hnext.2.2 m hm

end EmbeddedCourse.QueueChat
