import Tapyrus.Framework.Fill
import Tapyrus.Primitives.Block
import Tapyrus.Primitives.Transaction
import Tapyrus.Script.Interpreter
/-!
# Combining partially signed transactions

`PartiallySignedTransaction::Merge` of `script/sign.cpp` combines two PSBTs of one transaction
input by input and output by output: maps take the keys they lack from the other side, and a field
left empty takes the other side's value.  The exception is the UTXO of an input: taking a witness
UTXO from the other side clears the non-witness UTXO this side had.  On two PSBTs that agree where
both are set, the merge is therefore order-independent and keeps `IsSane` exactly when no input has
a witness UTXO on one side and a non-witness UTXO on the other; when one does, merging in one
order clears the non-witness UTXO and in the other keeps both, which `IsSane` rejects.
-/

namespace Tapyrus

open Framework

section Model

/-- `CScriptWitness::IsNull`. -/
def CScriptWitness.IsNull (w : CScriptWitness) : Bool := w.stack.isEmpty

/-- `SigPair`: the public key and its signature. -/
abbrev SigPair := CPubKey × List UInt8

/-- `PSBTInput`; a null `CTransactionRef` is `none`, a `CKeyID` its 20 bytes. -/
structure PSBTInput where
  non_witness_utxo : Option CTransaction
  witness_utxo : CTxOut
  redeem_script : CScript
  witness_script : CScript
  final_script_sig : CScript
  final_script_witness : CScriptWitness
  hd_keypaths : Finmap (fun _ : CPubKey => List UInt32)
  partial_sigs : Finmap (fun _ : List UInt8 => SigPair)
  unknown : Finmap (fun _ : List UInt8 => List UInt8)
  sighash_type : Int32

/-- `PSBTInput()`. -/
def PSBTInput.empty : PSBTInput :=
  ⟨none, CTxOut.null, [], [], [], ⟨[]⟩, ∅, ∅, ∅, 0⟩

/-- `PSBTInput::Merge`: each field left empty takes `input`'s value, the maps take the keys they
lack, and a witness UTXO taken from `input` clears the non-witness UTXO. -/
def PSBTInput.Merge (self input : PSBTInput) : PSBTInput :=
  let non_witness_utxo := fill Option.isNone self.non_witness_utxo input.non_witness_utxo
  let takeWitness := self.witness_utxo.IsNull && !input.witness_utxo.IsNull
  { non_witness_utxo := if takeWitness then none else non_witness_utxo
    witness_utxo := fill CTxOut.IsNull self.witness_utxo input.witness_utxo
    partial_sigs := self.partial_sigs ∪ input.partial_sigs
    hd_keypaths := self.hd_keypaths ∪ input.hd_keypaths
    unknown := self.unknown ∪ input.unknown
    redeem_script := fill List.isEmpty self.redeem_script input.redeem_script
    witness_script := fill List.isEmpty self.witness_script input.witness_script
    final_script_sig := fill List.isEmpty self.final_script_sig input.final_script_sig
    final_script_witness :=
      fill CScriptWitness.IsNull self.final_script_witness input.final_script_witness
    sighash_type := self.sighash_type }

/-- `PSBTInput::IsSane`: not both UTXOs, and a witness script or a final script witness only with
a witness UTXO. -/
def PSBTInput.IsSane (i : PSBTInput) : Bool :=
  if !i.witness_utxo.IsNull && i.non_witness_utxo.isSome then false
  else if !i.witness_script.isEmpty && i.witness_utxo.IsNull then false
  else if !i.final_script_witness.IsNull && i.witness_utxo.IsNull then false
  else true

/-- `PSBTOutput`. -/
structure PSBTOutput where
  redeem_script : CScript
  witness_script : CScript
  hd_keypaths : Finmap (fun _ : CPubKey => List UInt32)
  unknown : Finmap (fun _ : List UInt8 => List UInt8)

/-- `PSBTOutput()`. -/
def PSBTOutput.empty : PSBTOutput := ⟨[], [], ∅, ∅⟩

/-- `PSBTOutput::Merge`. -/
def PSBTOutput.Merge (self output : PSBTOutput) : PSBTOutput :=
  { hd_keypaths := self.hd_keypaths ∪ output.hd_keypaths
    unknown := self.unknown ∪ output.unknown
    redeem_script := fill List.isEmpty self.redeem_script output.redeem_script
    witness_script := fill List.isEmpty self.witness_script output.witness_script }

/-- `PartiallySignedTransaction`; `boost::optional` is `Option`. -/
structure PartiallySignedTransaction where
  tx : Option CTransaction
  inputs : List PSBTInput
  outputs : List PSBTOutput
  unknown : Finmap (fun _ : List UInt8 => List UInt8)

/-- `for (unsigned int i = 0; i < xs.size(); ++i) xs[i].Merge(ys[i]);`.  The source reads past the
end of `ys` when it is shorter; the model leaves those entries of `xs` as they are. -/
def mergeEach {α : Type} (merge : α → α → α) : List α → List α → List α
  | x :: xs, y :: ys => merge x y :: mergeEach merge xs ys
  | xs, [] => xs
  | [], _ :: _ => []

/-- `PartiallySignedTransaction::Merge`; the transaction itself is kept. -/
def PartiallySignedTransaction.Merge (self psbt : PartiallySignedTransaction) :
    PartiallySignedTransaction :=
  { tx := self.tx
    inputs := mergeEach PSBTInput.Merge self.inputs psbt.inputs
    outputs := mergeEach PSBTOutput.Merge self.outputs psbt.outputs
    unknown := self.unknown ∪ psbt.unknown }

/-- `PartiallySignedTransaction::IsSane`: every input is. -/
def PartiallySignedTransaction.IsSane (p : PartiallySignedTransaction) : Bool :=
  p.inputs.all PSBTInput.IsSane

end Model

section Agreement

/-- Two inputs agree on every field set in both (a missing witness UTXO is written the same way on
both), and on the sighash type. -/
structure PSBTInput.Agree (a b : PSBTInput) : Prop where
  non_witness_utxo : Framework.Agree Option.isNone a.non_witness_utxo b.non_witness_utxo
  witness_utxo : Framework.Agree CTxOut.IsNull a.witness_utxo b.witness_utxo
  redeem_script : Framework.Agree List.isEmpty a.redeem_script b.redeem_script
  witness_script : Framework.Agree List.isEmpty a.witness_script b.witness_script
  final_script_sig : Framework.Agree List.isEmpty a.final_script_sig b.final_script_sig
  final_script_witness :
    Framework.Agree CScriptWitness.IsNull a.final_script_witness b.final_script_witness
  hd_keypaths : MapAgree a.hd_keypaths b.hd_keypaths
  partial_sigs : MapAgree a.partial_sigs b.partial_sigs
  unknown : MapAgree a.unknown b.unknown
  sighash_type : a.sighash_type = b.sighash_type

/-- Neither input has a witness UTXO where the other has a non-witness one. -/
def PSBTInput.SameUtxoKind (a b : PSBTInput) : Prop :=
  (a.witness_utxo.IsNull = false → b.non_witness_utxo = none) ∧
    (b.witness_utxo.IsNull = false → a.non_witness_utxo = none)

/-- Two outputs agree on every field set in both. -/
structure PSBTOutput.Agree (a b : PSBTOutput) : Prop where
  redeem_script : Framework.Agree List.isEmpty a.redeem_script b.redeem_script
  witness_script : Framework.Agree List.isEmpty a.witness_script b.witness_script
  hd_keypaths : MapAgree a.hd_keypaths b.hd_keypaths
  unknown : MapAgree a.unknown b.unknown

/-- A PSBT of the unsigned transaction `tx`: as many inputs and outputs as it has. -/
def PartiallySignedTransaction.Of (tx : CTransaction) (p : PartiallySignedTransaction) : Prop :=
  p.tx = some tx ∧ p.inputs.length = tx.vin.length ∧ p.outputs.length = tx.vout.length

/-- Two PSBTs agree on every input, output and unknown key set in both. -/
structure PartiallySignedTransaction.Agree (A B : PartiallySignedTransaction) : Prop where
  inputs : List.Forall₂ PSBTInput.Agree A.inputs B.inputs
  outputs : List.Forall₂ PSBTOutput.Agree A.outputs B.outputs
  unknown : MapAgree A.unknown B.unknown

end Agreement

section Sanity

variable {i : PSBTInput}

/-- What `IsSane` checks, field by field. -/
theorem PSBTInput.isSane_iff : i.IsSane = true ↔
    (i.witness_utxo.IsNull = false → i.non_witness_utxo = none) ∧
    (i.witness_utxo.IsNull = true → i.witness_script = [] ∧ i.final_script_witness.IsNull = true) := by
  unfold PSBTInput.IsSane
  cases hw : i.witness_utxo.IsNull <;> cases hn : i.non_witness_utxo <;>
    cases hs : i.witness_script <;> cases hf : i.final_script_witness.IsNull <;> simp

/-- A merged input has a witness UTXO when either side has one, and then no non-witness UTXO
unless the side that kept its own witness UTXO had both. -/
theorem PSBTInput.merge_utxos (a b : PSBTInput) :
    (a.Merge b).witness_utxo.IsNull = (a.witness_utxo.IsNull && b.witness_utxo.IsNull) ∧
    (a.Merge b).non_witness_utxo =
      if a.witness_utxo.IsNull && !b.witness_utxo.IsNull then none
      else fill Option.isNone a.non_witness_utxo b.non_witness_utxo :=
  ⟨isNull_fill, rfl⟩

/-- The merge of two sane inputs with the same kind of UTXO is sane. -/
theorem PSBTInput.isSane_merge {a b : PSBTInput} (ha : a.IsSane = true) (hb : b.IsSane = true)
    (hk : a.SameUtxoKind b) : (a.Merge b).IsSane = true := by
  obtain ⟨haN, haW⟩ := PSBTInput.isSane_iff.mp ha
  obtain ⟨hbN, hbW⟩ := PSBTInput.isSane_iff.mp hb
  obtain ⟨hW, hN⟩ := PSBTInput.merge_utxos a b
  apply PSBTInput.isSane_iff.mpr
  constructor
  · -- a witness UTXO after the merge: taken from `b`, which clears the other, or `a`'s own
    intro hnull
    rw [hN]
    cases hwa : a.witness_utxo.IsNull <;> cases hwb : b.witness_utxo.IsNull
    · simp [haN hwa, hk.1 hwa, fill]
    · simp [haN hwa, hk.1 hwa, fill]
    · simp
    · rw [hW, hwa, hwb] at hnull
      cases hnull
  · -- no witness UTXO on either side: no witness script or final witness on either side
    intro hnull
    rw [hW, Bool.and_eq_true] at hnull
    obtain ⟨haS, haF⟩ := haW hnull.1
    obtain ⟨hbS, hbF⟩ := hbW hnull.2
    refine ⟨?_, ?_⟩
    · show fill List.isEmpty a.witness_script b.witness_script = []
      rw [haS, hbS]
      rfl
    · show CScriptWitness.IsNull (fill CScriptWitness.IsNull a.final_script_witness
        b.final_script_witness) = true
      rw [@isNull_fill _ CScriptWitness.IsNull a.final_script_witness b.final_script_witness, haF, hbF]
      rfl

end Sanity

section Commutation

/-- Merging two sane inputs that agree and have the same kind of UTXO does not depend on the
order. -/
theorem PSBTInput.merge_comm {a b : PSBTInput} (h : a.Agree b) (ha : a.IsSane = true)
    (hb : b.IsSane = true) (hk : a.SameUtxoKind b) : a.Merge b = b.Merge a := by
  obtain ⟨haN, -⟩ := PSBTInput.isSane_iff.mp ha
  obtain ⟨hbN, -⟩ := PSBTInput.isSane_iff.mp hb
  -- the non-witness UTXO: where a witness UTXO is set, no non-witness UTXO is left on either side
  have hN : (a.Merge b).non_witness_utxo = (b.Merge a).non_witness_utxo := by
    rw [(PSBTInput.merge_utxos a b).2, (PSBTInput.merge_utxos b a).2]
    cases hwa : a.witness_utxo.IsNull <;> cases hwb : b.witness_utxo.IsNull
    · simp [haN hwa, hbN hwb]
    · simp [haN hwa, hk.1 hwa, fill]
    · simp [hbN hwb, hk.2 hwb, fill]
    · simp only [Bool.not_true, Bool.and_false, Bool.false_eq_true, if_false]
      exact fill_comm h.non_witness_utxo
  obtain ⟨aN, aW, aR, aWS, aFS, aFW, aH, aP, aU, aT⟩ := a
  obtain ⟨bN, bW, bR, bWS, bFS, bFW, bH, bP, bU, bT⟩ := b
  obtain ⟨-, hW, hR, hWS, hFS, hFW, hH, hP, hU, hT⟩ := h
  simp only [PSBTInput.Merge, PSBTInput.mk.injEq] at hN ⊢
  exact ⟨hN, fill_comm hW, fill_comm hR, fill_comm hWS, fill_comm hFS, fill_comm hFW,
    union_comm_of_agree hH, union_comm_of_agree hP, union_comm_of_agree hU, hT⟩

/-- Merging two outputs that agree does not depend on the order. -/
theorem PSBTOutput.merge_comm {a b : PSBTOutput} (h : a.Agree b) : a.Merge b = b.Merge a := by
  obtain ⟨aR, aWS, aH, aU⟩ := a
  obtain ⟨bR, bWS, bH, bU⟩ := b
  obtain ⟨hR, hWS, hH, hU⟩ := h
  simp only [PSBTOutput.Merge, PSBTOutput.mk.injEq]
  exact ⟨fill_comm hR, fill_comm hWS, union_comm_of_agree hH, union_comm_of_agree hU⟩

variable {α : Type} {merge : α → α → α} {R : α → α → Prop}

/-- Entry-wise merges of related lists commute when each related pair's merge does. -/
theorem mergeEach_comm {xs ys : List α} (h : List.Forall₂ R xs ys)
    (hcomm : ∀ x y, R x y → merge x y = merge y x) :
    mergeEach merge xs ys = mergeEach merge ys xs := by
  induction h with
  | nil => rfl
  | cons hxy _ ih => rw [mergeEach, mergeEach, hcomm _ _ hxy, ih]

/-- Every entry of an entry-wise merge of related lists is the merge of a related pair. -/
theorem mem_mergeEach {xs ys : List α} (h : List.Forall₂ R xs ys) {z : α}
    (hz : z ∈ mergeEach merge xs ys) : ∃ x y, R x y ∧ z = merge x y := by
  induction h with
  | nil => cases hz
  | cons hxy _ ih =>
    rcases List.mem_cons.mp hz with rfl | hz
    · exact ⟨_, _, hxy, rfl⟩
    · exact ih hz

theorem forall₂_and {β : Type} {S : α → β → Prop} {R' : α → β → Prop} {xs : List α} {ys : List β}
    (h₁ : List.Forall₂ R' xs ys) (h₂ : List.Forall₂ S xs ys) :
    List.Forall₂ (fun x y => R' x y ∧ S x y) xs ys := by
  induction h₁ with
  | nil => exact .nil
  | cons hxy _ ih =>
    cases h₂ with
    | cons hS hrest => exact .cons ⟨hxy, hS⟩ (ih hrest)

theorem forall₂_mem {β : Type} {S : α → β → Prop} {R' : α → β → Prop} {xs : List α} {ys : List β}
    (h : List.Forall₂ R' xs ys) (hS : ∀ x ∈ xs, ∀ y ∈ ys, R' x y → S x y) :
    List.Forall₂ S xs ys := by
  induction h with
  | nil => exact .nil
  | cons hxy _ ih =>
    exact .cons (hS _ (.head _) _ (.head _) hxy)
      (ih fun x hx y hy => hS x (.tail _ hx) y (.tail _ hy))

/-- Two sane PSBTs of one transaction that agree where both are set, no input of which has a
witness UTXO on one side and a non-witness UTXO on the other, merge to the same sane PSBT in
either order. -/
theorem PartiallySignedTransaction.merge_comm {A B : PartiallySignedTransaction}
    {tx : CTransaction} (hA : A.Of tx) (hB : B.Of tx) (h : A.Agree B) (hsA : A.IsSane = true)
    (hsB : B.IsSane = true) (hk : List.Forall₂ PSBTInput.SameUtxoKind A.inputs B.inputs) :
    A.Merge B = B.Merge A ∧ (A.Merge B).IsSane = true := by
  have hsA' : ∀ i ∈ A.inputs, i.IsSane = true := List.all_eq_true.mp hsA
  have hsB' : ∀ i ∈ B.inputs, i.IsSane = true := List.all_eq_true.mp hsB
  -- everything an input pair needs, gathered into one relation
  have hin : List.Forall₂ (fun a b => (a.Agree b ∧ a.SameUtxoKind b) ∧ a.IsSane = true ∧
      b.IsSane = true) A.inputs B.inputs :=
    forall₂_mem (forall₂_and h.inputs hk) fun a ha b hb hab => ⟨hab, hsA' a ha, hsB' b hb⟩
  refine ⟨?_, ?_⟩
  · have hinputs := mergeEach_comm hin fun a b hab =>
      PSBTInput.merge_comm hab.1.1 hab.2.1 hab.2.2 hab.1.2
    have houtputs := mergeEach_comm h.outputs fun a b hab => PSBTOutput.merge_comm hab
    rw [PartiallySignedTransaction.Merge, PartiallySignedTransaction.Merge, hinputs, houtputs,
      union_comm_of_agree h.unknown, hA.1, hB.1]
  · apply List.all_eq_true.mpr
    intro z hz
    obtain ⟨a, b, hab, rfl⟩ := mem_mergeEach hin hz
    exact PSBTInput.isSane_merge hab.2.1 hab.2.2 hab.1.2

end Commutation

section OrderMatters

/-- A transaction with one input and one output. -/
def psbtTx : CTransaction :=
  ⟨[⟨⟨Uint256.zero, 0⟩, [], 0xffffffff⟩], [⟨5, []⟩], 1, 0⟩

/-- Its PSBT with the spent transaction as a non-witness UTXO. -/
def psbtNonWitness : PartiallySignedTransaction :=
  ⟨some psbtTx, [{ PSBTInput.empty with non_witness_utxo := some ⟨[], [⟨5, []⟩], 1, 0⟩ }],
    [PSBTOutput.empty], ∅⟩

/-- Its PSBT with the spent output as a witness UTXO. -/
def psbtWitness : PartiallySignedTransaction :=
  ⟨some psbtTx, [{ PSBTInput.empty with witness_utxo := ⟨5, []⟩ }], [PSBTOutput.empty], ∅⟩

/-- Two sane PSBTs of one transaction that agree on every field set in both, one holding the
input's UTXO as a non-witness UTXO and the other as a witness UTXO: merging the second into the
first clears the non-witness UTXO, merging the first into the second keeps both, so the two orders
differ and the second result is not sane. -/
theorem psbtMerge_depends_on_order :
    psbtNonWitness.Of psbtTx ∧ psbtWitness.Of psbtTx ∧ psbtNonWitness.Agree psbtWitness ∧
      psbtNonWitness.IsSane = true ∧ psbtWitness.IsSane = true ∧
      psbtNonWitness.Merge psbtWitness ≠ psbtWitness.Merge psbtNonWitness ∧
      (psbtWitness.Merge psbtNonWitness).IsSane = false := by
  refine ⟨⟨rfl, rfl, rfl⟩, ⟨rfl, rfl, rfl⟩, ?_, by decide, by decide, ?_, by decide⟩
  · refine ⟨.cons ⟨?_, ?_, ?_, ?_, ?_, ?_, ?_, ?_, ?_, rfl⟩ .nil,
      .cons ⟨?_, ?_, ?_, ?_⟩ .nil, MapAgree.refl _⟩ <;>
    first
    | exact Framework.Agree.refl _
    | exact MapAgree.refl _
    | intro h; cases h
  · intro h
    have h' := congrArg (fun p => p.inputs.map PSBTInput.non_witness_utxo) h
    simp [PartiallySignedTransaction.Merge, psbtNonWitness, psbtWitness, mergeEach,
      PSBTInput.Merge, PSBTInput.empty, fill, CTxOut.IsNull, CTxOut.null] at h'

end OrderMatters

end Tapyrus
