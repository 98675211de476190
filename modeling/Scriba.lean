import Scriba.Utility.ByteReader
import Scriba.Utility.ReaderProgress
import Scriba.Utility.SymbolCodecs
import Scriba.Client.Commutation
import Scriba.Client.Insertions
import Scriba.Client.MissingSymbols
import Scriba.Client.Pasting
import Scriba.Client.SharedEditor
import Scriba.System.Contents
import Scriba.System.Envelopes
import Scriba.System.Formats
import Scriba.System.Opening
import Scriba.System.Screens
import Scriba.System.Holders
import Scriba.System.SharedFiles
import Scriba.Server.Lookups
import Scriba.Server.NewFiles
import Scriba.Server.Replies
import Scriba.Server.Accounts
import Scriba.Server.Joining
import Scriba.Server.SaveSteps
import Scriba.Server.SharedLinks
import Scriba.Client.Highlighter
import Scriba.Client.Reformatting
import Scriba.System.FileNames
import Scriba.Client.FormattedInsertion
import Scriba.Client.Coordinates
import Scriba.Client.Echoes
import Scriba.Client.NetworkServer
import Scriba.Server.Threads
import Scriba.Client.Attribution
import Scriba.System.Cursors
import Scriba.System.Peers
