import CsPrimer.ShoutServer.Connection

/-!
Which bytes `do_send` sends. The next call of `send` starts at `data + sent`,
where `sent` is what the last call accepted and not the total. The first two
calls start where they should; from the third on, `send` is offered bytes that
were sent before.
-/

namespace CsPrimer.ShoutServer

variable {data accepted : List UInt8} {results : List SendResult}
  {sent total left : Nat} {ret : Int}

/-- Each call that accepts bytes takes from `data + sent` the same bytes as
from `data + total`. -/
def OffsetsAgree (data : List UInt8) :
    List SendResult → (sent total : Nat) → Prop
  | [], _, _ => True
  | result :: results, sent, total =>
      let count := result.ret.toNat
      0 < result.ret →
        (data.drop sent).take count = (data.drop total).take count ∧
          OffsetsAgree data results count (total + count)

/-- A call of `send` that accepts bytes, and what is left to do after it. -/
theorem doSend_accepts {result : SendResult}
    (h : doSend data (result :: results) sent total left = some (ret, accepted))
    (haccepts : 0 < result.ret) :
    ∃ rest, result.ret.toNat ≤ left ∧
      doSend data results result.ret.toNat (total + result.ret.toNat)
        (left - result.ret.toNat) = some (ret, rest) ∧
      accepted = (data.drop sent).take result.ret.toNat ++ rest := by
  simp only [doSend, if_neg (not_le.mpr haccepts)] at h
  split at h
  · cases h
  · rename_i hfits
    split at h
    · cases h
    · rename_i ret' rest hrest
      cases h
      exact ⟨rest, by omega, hrest, rfl⟩

/-- A call of `send` that fails ends `do_send`. -/
theorem doSend_fails {result : SendResult}
    (h : doSend data (result :: results) sent total left = some (ret, accepted))
    (hfails : result.ret ≤ 0) :
    results = [] ∧ ret = (if result.wouldBlock then (total : Int) else -1) ∧
      accepted = [] := by
  simp only [doSend, if_pos hfails] at h
  split at h
  · cases h
  · split at h
    · rename_i hlast
      cases h
      exact ⟨hlast, rfl, rfl⟩
    · cases h

/-- `do_send` counts what was accepted. -/
theorem doSend_count (hsent : sent ≤ total)
    (hlength : total + left ≤ data.length)
    (h : doSend data results sent total left = some (ret, accepted))
    (hret : 0 ≤ ret) : (ret : Int) = total + accepted.length := by
  induction results generalizing sent total left accepted with
  | nil =>
      simp only [doSend] at h
      split at h
      · cases h
        rfl
      · cases h
  | cons result results ih =>
      rcases le_or_gt result.ret 0 with hfails | haccepts
      · obtain ⟨_, hvalue, rfl⟩ := doSend_fails h hfails
        split at hvalue
        · exact hvalue
        · omega
      · obtain ⟨rest, hfits, hrest, rfl⟩ := doSend_accepts h haccepts
        have hcount := ih (by omega) (by omega) hrest
        rw [hcount, List.length_append, List.length_take, List.length_drop]
        omega

/-- From `total` on, the bytes accepted are those of the range exactly if the
offsets of the calls do not matter. -/
theorem doSend_in_place_iff (hsent : sent ≤ total)
    (hlength : total + left ≤ data.length)
    (h : doSend data results sent total left = some (ret, accepted))
    (hret : 0 ≤ ret) :
    accepted = (data.drop total).take accepted.length ↔
      OffsetsAgree data results sent total := by
  induction results generalizing sent total left accepted with
  | nil =>
      simp only [doSend] at h
      split at h
      · cases h
        exact iff_of_true rfl trivial
      · cases h
  | cons result results ih =>
      rcases le_or_gt result.ret 0 with hfails | haccepts
      · obtain ⟨_, _, rfl⟩ := doSend_fails h hfails
        apply iff_of_true rfl
        intro haccepts
        exact absurd haccepts (not_lt.mpr hfails)
      · obtain ⟨rest, hfits, hrest, rfl⟩ := doSend_accepts h haccepts
        have hrestIff := ih (by omega) (by omega) hrest
        have hcall : ((data.drop sent).take result.ret.toNat).length =
            result.ret.toNat := by
          rw [List.length_take, List.length_drop]
          omega
        have hplace : ((data.drop total).take result.ret.toNat).length =
            result.ret.toNat := by
          rw [List.length_take, List.length_drop]
          omega
        have hsplit : (data.drop total).take (result.ret.toNat + rest.length) =
            (data.drop total).take result.ret.toNat ++
              (data.drop (total + result.ret.toNat)).take rest.length := by
          rw [List.take_add, List.drop_drop]
        rw [List.length_append, hcall, hsplit, OffsetsAgree]
        constructor
        · intro heq _
          obtain ⟨hfirst, htail⟩ := List.append_inj heq (hcall.trans hplace.symm)
          exact ⟨hfirst, hrestIff.mp htail⟩
        · intro hagree
          obtain ⟨hfirst, htail⟩ := hagree haccepts
          rw [hfirst, ← hrestIff.mpr htail]

/-- The bytes accepted are the first ones of the range. -/
theorem doSend_first_iff (hlength : left ≤ data.length)
    (h : doSend data results 0 0 left = some (ret, accepted))
    (hret : 0 ≤ ret) :
    accepted = data.take ret.toNat ↔ OffsetsAgree data results 0 0 := by
  have hcount := doSend_count le_rfl (by omega) h hret
  have hlen : ret.toNat = accepted.length := by omega
  rw [hlen]
  exact doSend_in_place_iff le_rfl (by omega) h hret

def accepting (results : List SendResult) : Nat :=
  results.countP fun result => 0 < result.ret

/-- After a failure there is no further call. -/
theorem accepting_fails {result : SendResult}
    (h : doSend data (result :: results) sent total left = some (ret, accepted))
    (hfails : result.ret ≤ 0) : accepting (result :: results) = 0 := by
  obtain ⟨rfl, _⟩ := doSend_fails h hfails
  simp [accepting, hfails]

theorem accepting_accepts {result : SendResult} (haccepts : 0 < result.ret) :
    accepting (result :: results) = accepting results + 1 := by
  simp [accepting, haccepts]

theorem offsetsAgree_of_accepting_eq_zero (hnone : accepting results = 0) :
    OffsetsAgree data results sent total := by
  cases results with
  | nil => trivial
  | cons result results =>
      intro haccepts
      rw [accepting_accepts haccepts] at hnone
      omega

/-- The calls start at the same offsets while `sent` is the total. -/
theorem offsetsAgree_of_accepting_le_one (hone : accepting results ≤ 1) :
    OffsetsAgree data results total total := by
  cases results with
  | nil => trivial
  | cons result results =>
      intro haccepts
      rw [accepting_accepts haccepts] at hone
      exact ⟨rfl, offsetsAgree_of_accepting_eq_zero (by omega)⟩

theorem offsetsAgree_of_accepting_le_two (htwo : accepting results ≤ 2) :
    OffsetsAgree data results 0 0 := by
  cases results with
  | nil => trivial
  | cons result results =>
      intro haccepts
      rw [accepting_accepts haccepts] at htwo
      rw [Nat.zero_add]
      exact ⟨rfl, offsetsAgree_of_accepting_le_one (by omega)⟩

/-- What `do_send` returns does not depend on the bytes. -/
theorem doSend_any_data (data' : List UInt8)
    (h : doSend data results sent total left = some (ret, accepted)) :
    ∃ accepted', doSend data' results sent total left =
      some (ret, accepted') := by
  induction results generalizing sent total left accepted with
  | nil =>
      simp only [doSend] at h ⊢
      split at h
      · rename_i hdone
        cases h
        exact ⟨[], by rw [if_pos hdone]⟩
      · cases h
  | cons result results ih =>
      simp only [doSend] at h ⊢
      split at h
      · cases h
      · rename_i hoffered
        rw [if_neg hoffered]
        split at h
        · rename_i hfails
          rw [if_pos hfails]
          split at h
          · rename_i hlast
            cases h
            exact ⟨[], by rw [if_pos hlast]⟩
          · cases h
        · rename_i haccepts
          rw [if_neg haccepts]
          split at h
          · cases h
          · rename_i ret' rest hrest
            cases h
            obtain ⟨rest', hrest'⟩ := ih hrest
            exact ⟨_, by rw [hrest']⟩

/-- The first of more than `count` accepting calls. -/
theorem accepting_cons {count : Nat}
    (h : doSend data results sent total left = some (ret, accepted))
    (hmany : count < accepting results) :
    ∃ result rest accepted', results = result :: rest ∧ 0 < result.ret ∧
      result.ret.toNat ≤ left ∧ count ≤ accepting rest ∧
      doSend data rest result.ret.toNat (total + result.ret.toNat)
        (left - result.ret.toNat) = some (ret, accepted') := by
  cases results with
  | nil => simp [accepting] at hmany
  | cons result rest =>
      rcases le_or_gt result.ret 0 with hfails | haccepts
      · rw [accepting_fails h hfails] at hmany
        omega
      · obtain ⟨accepted', hfits, hrest, _⟩ := doSend_accepts h haccepts
        rw [accepting_accepts haccepts] at hmany
        exact ⟨result, rest, accepted', rfl, haccepts, hfits, by omega, hrest⟩

/-- With three calls that accept bytes, a byte that differs from all others
shows the wrong offset of the third. -/
theorem exists_offsets_disagree
    (h : doSend data results 0 0 left = some (ret, accepted))
    (hmany : 2 < accepting results) :
    ∃ data' : List UInt8, data'.length = left ∧
      ¬ OffsetsAgree data' results 0 0 := by
  obtain ⟨first, rest, _, rfl, hfirst, hfits, hmany, h⟩ := accepting_cons h hmany
  obtain ⟨second, rest, _, rfl, hsecond, hfits', hmany, h⟩ :=
    accepting_cons h hmany
  obtain ⟨third, rest, _, rfl, hthird, hfits'', _⟩ := accepting_cons h hmany
  set place := first.ret.toNat + second.ret.toNat with hplace
  refine ⟨(List.replicate left 0).set place 1, by simp, ?_⟩
  intro hagree
  obtain ⟨_, hagree⟩ := hagree hfirst
  obtain ⟨_, hagree⟩ := hagree hsecond
  obtain ⟨hslices, _⟩ := hagree hthird
  have hhead := congrArg (fun bytes : List UInt8 => bytes[0]?) hslices
  simp only [Nat.zero_add, List.getElem?_take, List.getElem?_drop,
    List.getElem?_set, List.length_replicate, List.getElem?_replicate] at hhead
  rw [if_pos (by omega), if_neg (by omega), if_pos (by omega), if_pos (by omega),
    if_pos (by omega), if_pos (by omega)] at hhead
  cases hhead

/-- For all contents of the range at once. -/
theorem doSend_first_for_all_iff (hret : 0 ≤ ret)
    (h : doSend data results 0 0 left = some (ret, accepted)) :
    (∀ data' accepted', left ≤ data'.length →
      doSend data' results 0 0 left = some (ret, accepted') →
      accepted' = data'.take ret.toNat) ↔ accepting results ≤ 2 := by
  constructor
  · intro hall
    by_contra hmany
    obtain ⟨data', hlength, hdisagree⟩ := exists_offsets_disagree h (by omega)
    obtain ⟨accepted', h'⟩ := doSend_any_data data' h
    have hfirst := hall data' accepted' hlength.ge h'
    exact hdisagree ((doSend_first_iff hlength.ge h' hret).mp hfirst)
  · intro htwo data' accepted' hlength h'
    exact (doSend_first_iff hlength h' hret).mpr
      (offsetsAgree_of_accepting_le_two htwo)

/-- The bytes that `send` accepted are the first bytes of the range, as many
as `do_send` returns, if and only if the offsets of the calls agree on these
bytes. They do so whatever the bytes are if and only if at most two calls of
`send` accept any. -/
theorem do_send_in_order_iff (data : List UInt8) (left : Nat)
    (hlength : left ≤ data.length) (results : List SendResult) (ret : Int)
    (accepted : List UInt8)
    (h : doSend data results 0 0 left = some (ret, accepted))
    (hret : 0 ≤ ret) :
    (accepted = data.take ret.toNat ↔ OffsetsAgree data results 0 0) ∧
      ((∀ data' accepted', left ≤ data'.length →
        doSend data' results 0 0 left = some (ret, accepted') →
        accepted' = data'.take ret.toNat) ↔ accepting results ≤ 2) :=
  ⟨doSend_first_iff hlength h hret, doSend_first_for_all_iff hret h⟩

/-- Two calls accept bytes, and the third one would block. -/
theorem two_sends_in_order_iff :
    ([1, 2, 3] = ([1, 2, 3, 4] : List UInt8).take (3 : Int).toNat ↔
      OffsetsAgree [1, 2, 3, 4] [⟨2, false⟩, ⟨1, false⟩, ⟨-1, true⟩] 0 0) ∧
    ((∀ data' accepted', 4 ≤ data'.length →
      doSend data' [⟨2, false⟩, ⟨1, false⟩, ⟨-1, true⟩] 0 0 4 =
        some (3, accepted') →
      accepted' = data'.take (3 : Int).toNat) ↔
        accepting [⟨2, false⟩, ⟨1, false⟩, ⟨-1, true⟩] ≤ 2) :=
  do_send_in_order_iff [1, 2, 3, 4] 4 (by decide)
    [⟨2, false⟩, ⟨1, false⟩, ⟨-1, true⟩] 3 [1, 2, 3] (by decide) (by decide)

/-- The third call starts one byte too early, and the third byte is never
sent. -/
theorem third_send_repeats :
    ∃ accepted, doSend [1, 2, 3] [⟨1, false⟩, ⟨1, false⟩, ⟨1, false⟩] 0 0 3 =
        some (3, accepted) ∧ accepted ≠ ([1, 2, 3] : List UInt8).take 3 :=
  ⟨[1, 2, 2], by decide, by decide⟩

end CsPrimer.ShoutServer
