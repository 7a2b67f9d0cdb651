import Tapyrus.Validation.CheckBlock
import Tapyrus.Coins.Refinement
/-!
# Amounts in `CheckTxInputs`

`Consensus::CheckTxInputs` of `consensus/tx_verify.cpp` and `CTransaction::GetValueOut`.
`CAmount` is `int64_t`: a sum that leaves its range is a signed overflow, which C++ leaves
undefined, and the model stops there with `overflow`.  All three loops over amounts add a value
before they check it.  `CheckTransaction` checks every output, so `GetValueOut` neither throws nor
overflows on a transaction it accepts.  Nothing checks the coins of the view, so a coin whose
value is out of range overflows the sum of the inputs before the check that would reject it.

The view is what `observe` shows of a sound stack of caches: `HaveCoin` and `AccessCoin` read it
as `haveCoin_fst` and `accessCoin_fst` say.  The DoS scores of the rejections are left out.
-/

namespace Tapyrus
open Framework

/-- How a call of `CheckTxInputs` ends when it does not return. -/
inductive TxInputsFault
  /-- `state.DoS` or `state.Invalid`, with the reject reason -/
  | reject (reason : String)
  /-- a `CAmount` result left the range of `int64_t` -/
  | overflow
  /-- `assert(!coin.IsSpent())` failed -/
  | assertion
  /-- `GetValueOut` threw its `std::runtime_error` -/
  | exception (what : String)
  deriving DecidableEq, Repr

/-- The result of `CAmount` arithmetic: the value, or the overflow. -/
def amountResult (x : ℤ) : Except TxInputsFault ℤ :=
  if INT64_MIN ≤ x ∧ x ≤ INT64_MAX then .ok x else .error .overflow

@[simp] theorem moneyRange_iff {nValue : ℤ} :
    MoneyRange nValue = true ↔ 0 ≤ nValue ∧ nValue ≤ MAX_MONEY := by
  simp [MoneyRange]

/-- A sum or difference of two amounts in `MoneyRange` fits in `int64_t`. -/
theorem amountResult_of_moneyRange {x a b : ℤ} (ha : MoneyRange a = true)
    (hb : MoneyRange b = true) (hx : x = a + b ∨ x = a - b) : amountResult x = .ok x := by
  rw [moneyRange_iff, MAX_MONEY, COIN] at ha hb
  rw [amountResult, if_pos]
  rcases hx with rfl | rfl <;> constructor <;> simp only [INT64_MIN, INT64_MAX] <;> omega

theorem amountResult_eq_ok {x y : ℤ} (h : amountResult x = .ok y) : y = x := by
  unfold amountResult at h
  split_ifs at h
  exact (Except.ok.inj h).symm

/-- The values of a list of outputs. -/
def outputValues (vout : List CTxOut) : List ℤ := vout.map (·.nValue.toInt)

@[simp] theorem outputValues_nil : outputValues [] = [] := rfl

@[simp] theorem outputValues_cons (txout : CTxOut) (vout : List CTxOut) :
    outputValues (txout :: vout) = txout.nValue.toInt :: outputValues vout := rfl

theorem sum_nonneg_of_moneyRange {l : List ℤ} (h : ∀ x ∈ l, MoneyRange x = true) : 0 ≤ l.sum :=
  List.sum_nonneg fun x hx => (moneyRange_iff.mp (h x hx)).1

/-! ## The output loop of `CheckTransaction` -/

/-- One turn of the output loop: the value and the new total are checked, then the rest. -/
theorem checkOutputValues_cons_ok {txout : CTxOut} {vout : List CTxOut} {nValueOut : ℤ} :
    checkOutputValues (txout :: vout) nValueOut = .ok () ↔
      MoneyRange txout.nValue.toInt = true ∧ MoneyRange (nValueOut + txout.nValue.toInt) = true ∧
        checkOutputValues vout (nValueOut + txout.nValue.toInt) = .ok () := by
  simp only [checkOutputValues]
  by_cases hneg : txout.nValue.toInt < 0
  · rw [if_pos hneg]
    exact iff_of_false throw_bind_ne_ok fun h => absurd (moneyRange_iff.mp h.1).1 (not_le.mpr hneg)
  rw [if_neg hneg]
  by_cases hbig : txout.nValue.toInt > MAX_MONEY
  · rw [if_pos hbig]
    exact iff_of_false throw_bind_ne_ok fun h => absurd (moneyRange_iff.mp h.1).2 (not_le.mpr hbig)
  rw [if_neg hbig]
  have hval : MoneyRange txout.nValue.toInt = true := moneyRange_iff.mpr ⟨by omega, by omega⟩
  cases hsum : MoneyRange (nValueOut + txout.nValue.toInt)
  · simp only [Bool.not_false, ↓reduceIte]
    exact iff_of_false throw_bind_ne_ok fun h => Bool.false_ne_true h.2.1
  · simp only [Bool.not_true, Bool.false_eq_true, ↓reduceIte, hval, true_and]

/-- The output loop accepts exactly the outputs each in `MoneyRange` whose values, added to the
running total, stay within `MAX_MONEY`. -/
theorem checkOutputValues_ok_iff {vout : List CTxOut} {nValueOut : ℤ}
    (h0 : MoneyRange nValueOut = true) :
    checkOutputValues vout nValueOut = .ok () ↔
      (∀ x ∈ outputValues vout, MoneyRange x = true) ∧
        nValueOut + (outputValues vout).sum ≤ MAX_MONEY := by
  -- the running total is in range at every turn, which is what the induction carries
  induction vout generalizing nValueOut with
  | nil =>
    simp only [checkOutputValues, outputValues_nil, List.sum_nil, add_zero]
    exact iff_of_true rfl ⟨nofun, (moneyRange_iff.mp h0).2⟩
  | cons txout vout ih =>
    rw [checkOutputValues_cons_ok, outputValues_cons, List.sum_cons]
    constructor
    · rintro ⟨hv, hsum, hrest⟩
      obtain ⟨hall, hle⟩ := (ih hsum).mp hrest
      exact ⟨List.forall_mem_cons.mpr ⟨hv, hall⟩, by omega⟩
    · rintro ⟨hall, hle⟩
      obtain ⟨hv, hrest⟩ := List.forall_mem_cons.mp hall
      have hs := sum_nonneg_of_moneyRange hrest
      have hsum : MoneyRange (nValueOut + txout.nValue.toInt) = true :=
        moneyRange_iff.mpr ⟨by linarith [(moneyRange_iff.mp h0).1, (moneyRange_iff.mp hv).1],
          by omega⟩
      exact ⟨hv, hsum, (ih hsum).mpr ⟨hrest, by omega⟩⟩

/-- Every addition the output loop makes stays in `int64_t`: the `k`-th is made once the outputs
before it passed, and after the `k`-th value passed its two checks. -/
theorem checkOutputValues_adds_fit {vout : List CTxOut} {k : ℕ} (hk : k < vout.length)
    (hreach : checkOutputValues (vout.take k) 0 = .ok ())
    (hv : MoneyRange vout[k].nValue.toInt = true) :
    amountResult ((outputValues (vout.take k)).sum + vout[k].nValue.toInt) =
      .ok ((outputValues (vout.take k)).sum + vout[k].nValue.toInt) := by
  have hpre := (checkOutputValues_ok_iff (by decide)).mp hreach
  refine amountResult_of_moneyRange ?_ hv (.inl rfl)
  exact moneyRange_iff.mpr ⟨sum_nonneg_of_moneyRange hpre.1, by simpa using hpre.2⟩

/-! ## `GetValueOut` -/

/-- The loop of `CTransaction::GetValueOut`, with its running total `nValueOut`. -/
def getValueOutLoop : List CTxOut → ℤ → Except TxInputsFault ℤ
  | [], nValueOut => pure nValueOut
  | tx_out :: vout, nValueOut => do
    let nValueOut ← amountResult (nValueOut + tx_out.nValue.toInt)
    if !MoneyRange tx_out.nValue.toInt || !MoneyRange nValueOut then
      throw (.exception "GetValueOut: value out of range")
    getValueOutLoop vout nValueOut

/-- `CTransaction::GetValueOut`. -/
def CTransaction.GetValueOut (tx : CTransaction) : Except TxInputsFault ℤ :=
  getValueOutLoop tx.vout 0

/-- `GetValueOut` returns the total of the outputs that the loop of `CheckTransaction`
accepts. -/
theorem getValueOutLoop_of_checkOutputValues {vout : List CTxOut} {nValueOut : ℤ}
    (h0 : MoneyRange nValueOut = true) (h : checkOutputValues vout nValueOut = .ok ()) :
    getValueOutLoop vout nValueOut = .ok (nValueOut + (outputValues vout).sum) := by
  induction vout generalizing nValueOut with
  | nil =>
    simp only [getValueOutLoop, outputValues_nil, List.sum_nil, add_zero]
    rfl
  | cons txout vout ih =>
    obtain ⟨hv, hsum, hrest⟩ := checkOutputValues_cons_ok.mp h
    simp only [getValueOutLoop, amountResult_of_moneyRange h0 hv (.inl rfl), except_ok_bind, hv,
      hsum, Bool.not_true, Bool.or_self, Bool.false_eq_true, ↓reduceIte, ih hsum hrest,
      outputValues_cons, List.sum_cons, add_assoc]

/-! ## The coins view -/

/-- A coins view as `CheckTxInputs` reads it: the unspent coin at each outpoint, if any. -/
structure CoinsView where
  coins : COutPoint → Option Coin
  unspent : ∀ outpoint coin, coins outpoint = some coin → coin.IsSpent = false

namespace CoinsView

/-- `CCoinsViewCache::HaveCoin`. -/
def HaveCoin (inputs : CoinsView) (outpoint : COutPoint) : Bool := (inputs.coins outpoint).isSome

/-- `CCoinsViewCache::AccessCoin`: the coin, or `coinEmpty`. -/
def AccessCoin (inputs : CoinsView) (outpoint : COutPoint) : Coin :=
  (inputs.coins outpoint).getD Coin.empty

/-- `CCoinsViewCache::HaveInputs`: a coinbase has none to look for. -/
def HaveInputs (inputs : CoinsView) (tx : CTransaction) : Bool :=
  if !tx.isCoinBase then tx.vin.all fun txin => inputs.HaveCoin txin.prevout else true

/-- The view of the stack of caches `caches` over `db`. -/
def ofStack (db : CCoinsViewDB) (caches : List CCoinsMap) : CoinsView :=
  ⟨observe db caches, fun _ _ h => observe_unspent db caches h⟩

/-- The view of the unspent ones of the listed coins, the first listed at an outpoint winning. -/
def ofList (coins : List (COutPoint × Coin)) : CoinsView where
  coins outpoint := ((coins.find? (·.1 == outpoint)).map (·.2)).filter (!·.IsSpent)
  unspent _ _ h := by simpa using (Option.filter_eq_some_iff.mp h).2

theorem ofList_mem {coins : List (COutPoint × Coin)} {outpoint : COutPoint} {coin : Coin}
    (h : (ofList coins).coins outpoint = some coin) : (outpoint, coin) ∈ coins := by
  obtain ⟨hfind, -⟩ := Option.filter_eq_some_iff.mp h
  obtain ⟨⟨outpoint', coin'⟩, hp, rfl⟩ := Option.map_eq_some_iff.mp hfind
  obtain rfl : outpoint' = outpoint := by simpa using List.find?_some hp
  exact List.mem_of_find?_eq_some hp

/-- A view has a coin exactly where `AccessCoin` finds an unspent one. -/
theorem haveCoin_eq (inputs : CoinsView) (outpoint : COutPoint) :
    inputs.HaveCoin outpoint = !(inputs.AccessCoin outpoint).IsSpent := by
  unfold HaveCoin AccessCoin
  cases h : inputs.coins outpoint with
  | none => rfl
  | some coin => simp [inputs.unspent outpoint coin h]

/-- The coin `AccessCoin` finds unspent is one of the view's. -/
theorem accessCoin_mem {inputs : CoinsView} {outpoint : COutPoint}
    (h : (inputs.AccessCoin outpoint).IsSpent = false) :
    inputs.coins outpoint = some (inputs.AccessCoin outpoint) := by
  unfold AccessCoin at h ⊢
  cases hc : inputs.coins outpoint with
  | none => simp [hc] at h
  | some coin => rfl

end CoinsView

/-! ## `CheckTxInputs` -/

def COINBASE_MATURITY : ℤ := 100

section Inputs

variable (inputs : CoinsView) (nSpendHeight : ℤ)

/-- The input loop of `Consensus::CheckTxInputs`, with its running total `nValueIn`.  The heights
are `int`s, compared as integers. -/
def checkTxInputsLoop : List CTxIn → ℤ → Except TxInputsFault ℤ
  | [], nValueIn => pure nValueIn
  | txin :: vin, nValueIn => do
    let coin := inputs.AccessCoin txin.prevout
    if coin.IsSpent then throw .assertion
    -- If prev is coinbase, check that it's matured
    if coin.fCoinBase && decide (nSpendHeight - coin.nHeight.toNat < COINBASE_MATURITY) then
      throw (.reject "bad-txns-premature-spend-of-coinbase")
    -- Check for negative or overflow input values
    let nValueIn ← amountResult (nValueIn + coin.out.nValue.toInt)
    if !MoneyRange coin.out.nValue.toInt || !MoneyRange nValueIn then
      throw (.reject "bad-txns-inputvalues-outofrange")
    checkTxInputsLoop vin nValueIn

/-- `Consensus::CheckTxInputs`: the fee `txfee` it sets when it returns `true`. -/
def CheckTxInputs (tx : CTransaction) : Except TxInputsFault ℤ := do
  -- are the actual inputs available?
  if !inputs.HaveInputs tx then throw (.reject "bad-txns-inputs-missingorspent")
  let nValueIn ← checkTxInputsLoop inputs nSpendHeight tx.vin 0
  let value_out ← tx.GetValueOut
  if nValueIn < value_out then throw (.reject "bad-txns-in-belowout")
  -- Tally transaction fees
  let txfee_aux ← amountResult (nValueIn - value_out)
  if !MoneyRange txfee_aux then throw (.reject "bad-txns-fee-outofrange")
  pure txfee_aux

/-- The values of the coins that the inputs `vin` spend. -/
def inputValues (vin : List CTxIn) : List ℤ :=
  vin.map fun txin => (inputs.AccessCoin txin.prevout).out.nValue.toInt

end Inputs

section InputsSpec

variable {inputs : CoinsView} {nSpendHeight : ℤ}

/-- A turn of the input loop does not overflow while the view's coins are in range: it stops at a
missing coin, an immature coinbase or a total above `MAX_MONEY`, or goes on with the new total. -/
theorem checkTxInputsLoop_cons
    (hvals : ∀ outpoint coin, inputs.coins outpoint = some coin →
      MoneyRange coin.out.nValue.toInt = true)
    {txin : CTxIn} {vin : List CTxIn} {nValueIn : ℤ} (h0 : MoneyRange nValueIn = true) :
    checkTxInputsLoop inputs nSpendHeight (txin :: vin) nValueIn =
      if !inputs.HaveCoin txin.prevout then .error .assertion
      else if (inputs.AccessCoin txin.prevout).fCoinBase && decide (nSpendHeight -
          (inputs.AccessCoin txin.prevout).nHeight.toNat < COINBASE_MATURITY) then
        .error (.reject "bad-txns-premature-spend-of-coinbase")
      else if !MoneyRange (nValueIn + (inputs.AccessCoin txin.prevout).out.nValue.toInt) then
        .error (.reject "bad-txns-inputvalues-outofrange")
      else checkTxInputsLoop inputs nSpendHeight vin
        (nValueIn + (inputs.AccessCoin txin.prevout).out.nValue.toInt) := by
  set coin := inputs.AccessCoin txin.prevout with hcoin
  rw [CoinsView.haveCoin_eq]
  cases hs : coin.IsSpent
  · have hv := hvals _ _ (CoinsView.accessCoin_mem hs)
    simp only [checkTxInputsLoop, coin, hs, Bool.not_false, Bool.false_eq_true, ↓reduceIte,
      amountResult_of_moneyRange h0 hv (.inl rfl), hv, Bool.not_true, Bool.false_or,
      except_ok_bind]
    split_ifs <;> rfl
  · simp only [checkTxInputsLoop, coin, hs, Bool.not_true, ↓reduceIte]
    rfl

/-- The input loop returns the running total plus the values of the coins spent, in range. -/
theorem checkTxInputsLoop_ok
    (hvals : ∀ outpoint coin, inputs.coins outpoint = some coin →
      MoneyRange coin.out.nValue.toInt = true)
    {vin : List CTxIn} {nValueIn v : ℤ} (h0 : MoneyRange nValueIn = true)
    (h : checkTxInputsLoop inputs nSpendHeight vin nValueIn = .ok v) :
    v = nValueIn + (inputValues inputs vin).sum ∧ MoneyRange v = true := by
  induction vin generalizing nValueIn with
  | nil =>
    obtain rfl : nValueIn = v := Except.ok.inj h
    simpa [inputValues] using h0
  | cons txin vin ih =>
    rw [checkTxInputsLoop_cons hvals h0] at h
    split_ifs at h with hhave hcb hsum
    obtain ⟨rfl, hv⟩ := ih (by simpa using hsum) h
    exact ⟨by simp [inputValues, add_assoc], hv⟩

/-- The input loop stops only at a rejection, or at the assertion on an input whose coin the
view lacks. -/
theorem checkTxInputsLoop_error
    (hvals : ∀ outpoint coin, inputs.coins outpoint = some coin →
      MoneyRange coin.out.nValue.toInt = true)
    {vin : List CTxIn} {nValueIn : ℤ} {e : TxInputsFault} (h0 : MoneyRange nValueIn = true)
    (h : checkTxInputsLoop inputs nSpendHeight vin nValueIn = .error e) :
    (∃ reason, e = .reject reason) ∨
      (e = .assertion ∧ ∃ txin ∈ vin, inputs.HaveCoin txin.prevout = false) := by
  induction vin generalizing nValueIn with
  | nil => cases h
  | cons txin vin ih =>
    rw [checkTxInputsLoop_cons hvals h0] at h
    split_ifs at h with hhave hcb hsum
    · exact .inr ⟨(Except.error.inj h).symm, txin, List.mem_cons_self, by simpa using hhave⟩
    · exact .inl ⟨_, (Except.error.inj h).symm⟩
    · exact .inl ⟨_, (Except.error.inj h).symm⟩
    · rcases ih (by simpa using hsum) h with hr | ⟨ha, txin', hmem, hmiss⟩
      · exact .inl hr
      · exact .inr ⟨ha, txin', List.mem_cons_of_mem _ hmem, hmiss⟩

/-- What `CheckTxInputs` returns: the values of the spent coins less `GetValueOut`, in range. -/
theorem checkTxInputs_ok
    (hvals : ∀ outpoint coin, inputs.coins outpoint = some coin →
      MoneyRange coin.out.nValue.toInt = true)
    {tx : CTransaction} {txfee : ℤ} (h : CheckTxInputs inputs nSpendHeight tx = .ok txfee) :
    ∃ value_out, tx.GetValueOut = .ok value_out ∧
      txfee = (inputValues inputs tx.vin).sum - value_out ∧ MoneyRange txfee = true := by
  unfold CheckTxInputs at h
  by_cases hhave : (!inputs.HaveInputs tx) = true
  · rw [if_pos hhave] at h
    exact absurd h throw_bind_ne_ok
  rw [if_neg hhave] at h
  obtain ⟨nValueIn, hloop, h⟩ := except_bind_eq_ok.mp h
  obtain ⟨value_out, hout, h⟩ := except_bind_eq_ok.mp h
  obtain ⟨rfl, -⟩ := checkTxInputsLoop_ok hvals (by decide) hloop
  by_cases hlt : 0 + (inputValues inputs tx.vin).sum < value_out
  · rw [if_pos hlt] at h
    exact absurd h throw_bind_ne_ok
  rw [if_neg hlt] at h
  obtain ⟨txfee_aux, hfee, h⟩ := except_bind_eq_ok.mp h
  obtain rfl := amountResult_eq_ok hfee
  by_cases hr : (!MoneyRange (0 + (inputValues inputs tx.vin).sum - value_out)) = true
  · rw [if_pos hr] at h
    exact absurd h throw_bind_ne_ok
  rw [if_neg hr] at h
  obtain rfl := (Except.ok.inj h).symm
  exact ⟨value_out, hout, by ring, by simpa using hr⟩

/-- How `CheckTxInputs` fails once `GetValueOut` returns an amount in range: by a rejection, or by
the assertion, which only a coinbase can reach. -/
theorem checkTxInputs_error
    (hvals : ∀ outpoint coin, inputs.coins outpoint = some coin →
      MoneyRange coin.out.nValue.toInt = true)
    {tx : CTransaction} {value_out : ℤ} {e : TxInputsFault} (hout : tx.GetValueOut = .ok value_out)
    (hrange : MoneyRange value_out = true) (h : CheckTxInputs inputs nSpendHeight tx = .error e) :
    (∃ reason, e = .reject reason) ∨ (e = .assertion ∧ tx.isCoinBase = true) := by
  unfold CheckTxInputs at h
  by_cases hhave : (!inputs.HaveInputs tx) = true
  · rw [if_pos hhave] at h
    cases h
    exact .inl ⟨_, rfl⟩
  rw [if_neg hhave] at h
  cases hloop : checkTxInputsLoop inputs nSpendHeight tx.vin 0 with
  | error e' =>
    rw [hloop] at h
    cases h
    rcases checkTxInputsLoop_error hvals (by decide) hloop with hr | ⟨rfl, txin, hmem, hmiss⟩
    · exact .inl hr
    -- `HaveInputs` passed, so only a coinbase can lack the coin of an input
    refine .inr ⟨rfl, ?_⟩
    by_contra hcb
    have hall : tx.isCoinBase = false → ∀ txin ∈ tx.vin, inputs.HaveCoin txin.prevout = true := by
      simpa [CoinsView.HaveInputs] using hhave
    exact absurd (hall (by simpa using hcb) txin hmem) (by simp [hmiss])
  | ok nValueIn =>
    obtain ⟨rfl, hin⟩ := checkTxInputsLoop_ok hvals (by decide) hloop
    rw [hloop, except_ok_bind, hout, except_ok_bind] at h
    by_cases hlt : 0 + (inputValues inputs tx.vin).sum < value_out
    · rw [if_pos hlt] at h
      cases h
      exact .inl ⟨_, rfl⟩
    rw [if_neg hlt, amountResult_of_moneyRange hin hrange (.inr rfl), except_ok_bind] at h
    by_cases hr : (!MoneyRange (0 + (inputValues inputs tx.vin).sum - value_out)) = true
    · rw [if_pos hr] at h
      cases h
      exact .inl ⟨_, rfl⟩
    rw [if_neg hr] at h
    cases h

end InputsSpec

/-- The amounts of a transaction that `CheckTransaction` accepts, checked against a view whose
coins are in range: no sum of `CheckTransaction`, `GetValueOut` or `CheckTxInputs` overflows,
`GetValueOut` does not throw, only a coinbase can reach the assertion, and the fee is the value
of the spent coins less that of the outputs, in `MoneyRange`. -/
theorem checkTxInputs_amounts (tx : CTransaction) (fCheckDuplicateInputs fGenesis : Bool)
    (inputs : CoinsView)
    (hvals : ∀ outpoint coin, inputs.coins outpoint = some coin →
      MoneyRange coin.out.nValue.toInt = true)
    (nSpendHeight : ℤ) :
    (∀ k (hk : k < tx.vout.length), checkOutputValues (tx.vout.take k) 0 = .ok () →
      MoneyRange tx.vout[k].nValue.toInt = true →
      amountResult ((outputValues (tx.vout.take k)).sum + tx.vout[k].nValue.toInt) =
        .ok ((outputValues (tx.vout.take k)).sum + tx.vout[k].nValue.toInt)) ∧
    (CheckTransaction tx fCheckDuplicateInputs fGenesis = .ok () →
      (∀ x ∈ outputValues tx.vout, MoneyRange x = true) ∧
      MoneyRange (outputValues tx.vout).sum = true ∧
      tx.GetValueOut = .ok (outputValues tx.vout).sum ∧
      (∀ txfee, CheckTxInputs inputs nSpendHeight tx = .ok txfee →
        txfee = (inputValues inputs tx.vin).sum - (outputValues tx.vout).sum ∧
          MoneyRange txfee = true) ∧
      (∀ e, CheckTxInputs inputs nSpendHeight tx = .error e →
        (∃ reason, e = .reject reason) ∨ (e = .assertion ∧ tx.isCoinBase = true))) := by
  refine ⟨fun k hk hreach hv => checkOutputValues_adds_fit hk hreach hv, fun hcheck => ?_⟩
  have houts := (checkTransaction_ok hcheck).2.2.1
  obtain ⟨hall, hle⟩ := (checkOutputValues_ok_iff (by decide)).mp houts
  rw [zero_add] at hle
  have hout : tx.GetValueOut = .ok (outputValues tx.vout).sum := by
    rw [CTransaction.GetValueOut, getValueOutLoop_of_checkOutputValues (by decide) houts, zero_add]
  have hrange : MoneyRange (outputValues tx.vout).sum = true :=
    moneyRange_iff.mpr ⟨sum_nonneg_of_moneyRange hall, hle⟩
  refine ⟨hall, hrange, hout, fun txfee h => ?_, fun e h => checkTxInputs_error hvals hout hrange h⟩
  obtain ⟨value_out, hout', hfee, hr⟩ := checkTxInputs_ok hvals h
  obtain rfl : value_out = (outputValues tx.vout).sum := Except.ok.inj (hout'.symm.trans hout)
  exact ⟨hfee, hr⟩

/-- The hash of the transaction whose outputs the examples spend. -/
def payerHash : Uint256 := ⟨Vector.replicate 32 1⟩

/-- A transaction paying `value` from the first two outputs of `payerHash`. -/
def twoInputSpend (value : Int64) : CTransaction :=
  ⟨[⟨⟨payerHash, 0⟩, [], CTxIn.SEQUENCE_FINAL⟩, ⟨⟨payerHash, 1⟩, [], CTxIn.SEQUENCE_FINAL⟩],
    [⟨value, []⟩], 1, 0⟩

/-- A view holding those two outputs, worth `first` and `second`. -/
def twoCoins (first second : Int64) : CoinsView :=
  .ofList [(⟨payerHash, 0⟩, ⟨⟨first, []⟩, false, 1⟩), (⟨payerHash, 1⟩, ⟨⟨second, []⟩, false, 1⟩)]

theorem checkTxInputs_amounts_fee :
    (∀ outpoint coin, (twoCoins 5 3).coins outpoint = some coin →
      MoneyRange coin.out.nValue.toInt = true) ∧
    CheckTransaction (twoInputSpend 6) true false = .ok () ∧
    CheckTxInputs (twoCoins 5 3) 0 (twoInputSpend 6) = .ok 2 ∧
    2 = (inputValues (twoCoins 5 3) (twoInputSpend 6).vin).sum -
      (outputValues (twoInputSpend 6).vout).sum := by
  have hvals : ∀ outpoint coin, (twoCoins 5 3).coins outpoint = some coin →
      MoneyRange coin.out.nValue.toInt = true := by
    intro outpoint coin h
    have hmem := CoinsView.ofList_mem h
    simp only [List.mem_cons, List.not_mem_nil, or_false, Prod.mk.injEq] at hmem
    rcases hmem with ⟨-, rfl⟩ | ⟨-, rfl⟩ <;> decide
  have hcheck : CheckTransaction (twoInputSpend 6) true false = .ok () := by decide +kernel
  have hrun : CheckTxInputs (twoCoins 5 3) 0 (twoInputSpend 6) = .ok 2 := by decide +kernel
  exact ⟨hvals, hcheck, hrun,
    (((checkTxInputs_amounts (twoInputSpend 6) true false (twoCoins 5 3) hvals 0).2
      hcheck).2.2.2.1 2 hrun).1⟩

end Tapyrus
