import MochimoWallet.Keystore.Reservations
import MochimoWallet.Keystore.Writes
import MochimoWallet.Keystore.Sign
import MochimoWallet.Keystore.Atomic
import MochimoWallet.Keystore.Invariant
import MochimoWallet.Keystore.KeyReuse
import MochimoWallet.Keystore.OneDigest
import MochimoWallet.Keystore.SlotRun
import MochimoWallet.Wallet.Artifact
import MochimoWallet.Wallet.Moves
import MochimoWallet.Wallet.InStep
import MochimoWallet.Wallet.Resign
import MochimoWallet.Recon.Classify
import MochimoWallet.Cli.Reconcile
import MochimoWallet.WotsCounted
import MochimoWallet.WotsChecksum
import MochimoWallet.Tx.Codec
import MochimoWallet.Keystore.Canonical
import MochimoWallet.Keystore.Nonces
import MochimoWallet.Keystore.Migration
import MochimoWallet.Mesh.Scheme
import MochimoWallet.Keystore.Imported
import MochimoWallet.Keystore.Adopted
import MochimoWallet.Cli.RestoreRefused
import MochimoWallet.Recon.Resubmit
import MochimoWallet.Wallet.Gate
import MochimoWallet.Lib.Stop
import MochimoWallet.Recon.Stops
import MochimoWallet.Recon.Watched
import MochimoWallet.Cli.Discover
import MochimoWallet.Cli.Watched
import MochimoWallet.Cli.Cancelled
import MochimoWallet.Cli.Create
import MochimoWallet.Cli.CreateRefused
import MochimoWallet.Keystore.Processes
import MochimoWallet.Keystore.OneWriter
import MochimoWallet.Keystore.Addresses
import MochimoWallet.Base58
import MochimoWallet.Cli.Args
import MochimoWallet.Cli.TagArg
import MochimoWallet.Crc
import MochimoWallet.Mesh.Reference
import MochimoWallet.Cli.Explorer
import MochimoWallet.Cli.Argv
import MochimoWallet.Cli.Console
import MochimoWallet.Keystore.Perms
import MochimoWallet.Phrases
import MochimoWallet.Cli.TerminalText
import MochimoWallet.Keystore.Frames
import MochimoWallet.Cli.Reports
import MochimoWallet.WotsWords
import MochimoWallet.Generator
import MochimoWallet.Cli.Exact
import MochimoWallet.Cli.Effects
import MochimoWallet.Cli.Spends
import MochimoWallet.Wallet.Forgery
import MochimoWallet.Cli.Rebuild
import MochimoWallet.Cli.Recreated
import MochimoWallet.Cli.Does
import MochimoWallet.Cli.Heard
import MochimoWallet.Cli.History
import MochimoWallet.Cli.Walks
