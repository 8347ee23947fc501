import BitfiniteCore.Coins.Cache

/-!
# The token checks of a transaction

An input is read through `accessCoin`, which stands for the view.
-/

namespace BitfiniteCore

def scriptEnableTokens : UInt32 := 0x08000000

def checkTokenData : Option OutputData → Except Stop Unit
  | none => .ok ()
  | some pdata =>
    if !pdata.isValidBitfield then dos 100 rejectInvalid "bad-txns-token-bad-bitfield"
    else if pdata.amount < 0 then dos 100 rejectInvalid "bad-txns-token-amount-negative"
    else if pdata.amount == 0 && pdata.isFungibleOnly then
      dos 100 rejectInvalid "bad-txns-token-non-nft-amount-zero"
    else if (pdata.amount != 0) != pdata.hasAmount then
      dos 100 rejectInvalid "bad-txns-token-amount-bitfield-mismatch"
    else if pdata.hasCommitmentLength != !pdata.commitment.isEmpty then
      dos 100 rejectInvalid "bad-txns-token-commitment-bitfield-mismatch"
    else if pdata.isFungibleOnly then
      if !pdata.commitment.isEmpty then
        dos 100 rejectInvalid "bad-txns-token-fungible-with-commitment"
      else .ok ()
    else if pdata.commitment.length > maxConsensusCommitmentLength then
      dos 100 rejectInvalid "bad-txns-token-commitment-oversized"
    else .ok ()

def checkPreActivationSanity (accessCoin : COutPoint → Coin) : List CTxIn → Except Stop Unit
  | [] => .ok ()
  | i::vin =>
    let coin := accessCoin i.prevout
    if !coin.isSpent && (coin.out.tokenData.isSome || coin.out.hasUnparseableTokenData) then
      dos 100 rejectInvalid "bad-txns-vin-tokenprefix-preactivation"
    else checkPreActivationSanity accessCoin vin

/-- Script integers exclude the least 64-bit value. -/
def valid64BitRange (x : Int) : Bool := decide (int64Min < x) && decide (x ≤ int64Max)

def safeAmount (x : Int) : Except Stop Int :=
  if valid64BitRange x then .ok x else dos 100 rejectInvalid "bad-txns-token-amount-overflow"

structure TokenTallies where
  potentialGenesisIds : List TokenId
  inputAmountsByCategory : TokenId → Option Int
  genesisAmountsByCategory : TokenId → Int
  inputMintingIds : TokenId → Bool
  inputMutables : TokenId → Nat
  inputImmutables : TokenId → NFTCommitment → Nat

namespace TokenTallies

def empty : TokenTallies := ⟨[],fun _ => none,fun _ => 0,fun _ => false,fun _ => 0,fun _ _ => 0⟩

def addGenesisId (st : TokenTallies) (prevout : COutPoint) : Except Stop TokenTallies :=
  if prevout.n == 0 then
    if st.potentialGenesisIds.contains prevout.txid then
      dos 100 rejectInvalid "bad-txns-inputs-duplicate"
    else .ok { st with potentialGenesisIds := prevout.txid::st.potentialGenesisIds }
  else .ok st

def addNFT (st : TokenTallies) (d : OutputData) : Except Stop TokenTallies :=
  if !d.hasNFT then .ok st
  else if d.isImmutableNFT then
    let seen := st.inputImmutables d.id
    let seen := Function.update seen d.commitment (seen d.commitment+1)
    .ok { st with inputImmutables := Function.update st.inputImmutables d.id seen }
  else if d.isMutableNFT then
    .ok { st with inputMutables := Function.update st.inputMutables d.id (st.inputMutables d.id+1) }
  else if d.isMintingNFT then
    .ok { st with inputMintingIds := Function.update st.inputMintingIds d.id true }
  else .error (.assertion "false")

def addInputToken (st : TokenTallies) (d : OutputData) : Except Stop TokenTallies :=
  (checkTokenData (some d)).bind fun _ =>
    (safeAmount ((st.inputAmountsByCategory d.id).getD 0+d.amount)).bind fun catAmount =>
      let amounts := Function.update st.inputAmountsByCategory d.id (some catAmount)
      addNFT { st with inputAmountsByCategory := amounts } d

def spendNFT (st : TokenTallies) (d : OutputData) : Except Stop TokenTallies :=
  let immutables := st.inputImmutables d.id
  if d.isImmutableNFT && decide (immutables d.commitment > 0) then
    let immutables := Function.update immutables d.commitment (immutables d.commitment-1)
    .ok { st with inputImmutables := Function.update st.inputImmutables d.id immutables }
  else if !d.isMintingNFT && decide (st.inputMutables d.id > 0) then
    .ok { st with inputMutables := Function.update st.inputMutables d.id (st.inputMutables d.id-1) }
  else if st.inputMintingIds d.id then .ok st
  else dos 100 rejectInvalid "bad-txns-token-nft-ex-nihilo"

def spendToken (st : TokenTallies) (d : OutputData) : Except Stop TokenTallies :=
  (checkTokenData (some d)).bind fun _ =>
    match st.inputAmountsByCategory d.id, st.potentialGenesisIds.contains d.id with
    | some _, true => dos 100 rejectInvalid "bad-txns-token-dupe-genesis"
    | none, false => dos 100 rejectInvalid "bad-txns-token-invalid-category"
    | none, true =>
      (safeAmount (st.genesisAmountsByCategory d.id+d.amount)).bind fun tally =>
        if tally < 0 then dos 100 rejectInvalid "bad-txns-token-in-belowout"
        else
          let amounts := Function.update st.genesisAmountsByCategory d.id tally
          .ok { st with genesisAmountsByCategory := amounts }
    | some amount, false =>
      (safeAmount (amount-d.amount)).bind fun tally =>
        if tally < 0 then dos 100 rejectInvalid "bad-txns-token-in-belowout"
        else
          let amounts := Function.update st.inputAmountsByCategory d.id (some tally)
          let st := { st with inputAmountsByCategory := amounts }
          if d.hasNFT then spendNFT st d else .ok st
end TokenTallies

def scanInputs (accessCoin : COutPoint → Coin) (firstTokenEnabledBlockHeight : Int) :
    TokenTallies → List CTxIn → Except Stop TokenTallies
  | st, [] => .ok st
  | st, i::vin =>
    let coin := accessCoin i.prevout
    if coin.isSpent then dos 100 rejectInvalid "bad-txns-inputs-missingorspent"
    else if coin.out.hasUnparseableTokenData then dos 100 rejectInvalid "bad-txns-vin-tokenprefix"
    else if coin.out.tokenData.isSome && decide ((coin.getHeight : Int) < firstTokenEnabledBlockHeight) then
      dos 100 rejectInvalid "bad-txns-vin-token-created-pre-activation"
    else (st.addGenesisId i.prevout).bind fun st =>
      match coin.out.tokenData with
      | none => scanInputs accessCoin firstTokenEnabledBlockHeight st vin
      | some d => (st.addInputToken d).bind fun st =>
        scanInputs accessCoin firstTokenEnabledBlockHeight st vin

def scanOutputs : TokenTallies → List CTxOut → Except Stop Unit
  | _, [] => .ok ()
  | st, o::vout =>
    match o.tokenData with
    | none => scanOutputs st vout
    | some d => (st.spendToken d).bind fun st => scanOutputs st vout

def checkTxTokens (tx : CTransaction) (accessCoin : COutPoint → Coin) (scriptFlags : UInt32)
    (firstTokenEnabledBlockHeight : Int) : Except Stop Unit :=
  if scriptFlags &&& scriptEnableTokens == 0 then
    if tx.isCoinBase then .ok () else checkPreActivationSanity accessCoin tx.vin
  else if tx.hasOutputsWithUnparseableTokenData then dos 100 rejectInvalid "bad-txns-vout-tokenprefix"
  else if tx.isCoinBase then
    if tx.hasTokenOutputs then dos 100 rejectInvalid "bad-txns-coinbase-has-tokens" else .ok ()
  else (scanInputs accessCoin firstTokenEnabledBlockHeight TokenTallies.empty tx.vin).bind fun st =>
    scanOutputs st tx.vout
end BitfiniteCore
